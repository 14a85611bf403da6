import IrodsMicroservices.ArchiveCreate

/-!
# The entries of an archive

What a creation that returns 0 has written: `INDEX.json` with the document of the
index, and then one entry for each index item in the order of the index, a
collection without data and a data object with what it held when the creation
started (`writeAll_entries`).
-/

open Catalog

namespace Libarchive

/-- The last entry of some calls. -/
theorem entriesOf_append (e : EntryHeader) (bufs : List Bytes) : ∀ calls : List WriteCall,
    entriesOf (calls ++ .header e :: bufs.map .data) = entriesOf calls ++ [(e, bufs.flatten)] := by
  have hdata : ∀ bufs : List Bytes, dataOf (bufs.map .data) = bufs.flatten
      ∧ entriesOf (bufs.map .data) = [] := by
    intro bufs
    induction bufs with
    | nil => exact ⟨rfl, rfl⟩
    | cons buf bufs ih => exact ⟨congrArg (buf ++ ·) ih.1, ih.2⟩
  have hstop : ∀ calls : List WriteCall,
      dataOf (calls ++ .header e :: bufs.map .data) = dataOf calls := by
    intro calls
    induction calls with
    | nil => rfl
    | cons c calls ih =>
      cases c with
      | header e => rfl
      | data buf => exact congrArg (buf ++ ·) ih
  intro calls
  induction calls with
  | nil => exact congrArg₂ (fun d es => (e, d) :: es) (hdata bufs).1 (hdata bufs).2
  | cons c calls ih =>
    cases c with
    | header e' => exact congrArg₂ (fun d es => (e', d) :: es) (hstop calls) ih
    | data buf => exact ih

end Libarchive

namespace WriteArchive

open Libarchive

/-- What a data object holds, nothing where there is none. -/
def content (nodes : Text → Option Node) (path : Text) : Bytes :=
  match nodes path with
  | some (.obj data) => data
  | _ => []

/-- **The entry of an index item.** -/
def entryOf (origin : Text) (nodes : Text → Option Node) (item : Json) : EntryHeader × Bytes :=
  if item.stringMember "type".toList = some "coll".toList then (collHeader item, [])
  else (dataObjHeader item, (item.stringMember "name".toList).elim []
    (fun name => content nodes (Text.rstrcpy (Text.join origin name))))

/-- The item is not for the archive object that is being written. -/
def Apart (origin path : Text) (item : Json) : Prop :=
  ∀ name, item.stringMember "name".toList = some name →
    item.stringMember "type".toList ≠ some "coll".toList →
    Text.rstrcpy (Text.join origin name) ≠ path

/-- What is read for an item that is apart does not depend on the archive object. -/
theorem entryOf_congr {origin path : Text} {nodes nodes' : Text → Option Node} {item : Json}
    (hapart : Apart origin path item) (h : ∀ p, p ≠ path → nodes' p = nodes p) :
    entryOf origin nodes' item = entryOf origin nodes item := by
  unfold entryOf
  split
  · rfl
  · rename_i htype
    cases hname : item.stringMember "name".toList with
    | none => rfl
    | some name =>
      rw [Option.elim_some, Option.elim_some, content, content, h _ (hapart name hname htype)]

section Entries

variable {L : Libarchive} {E : Irods} {J : Jansson}

/-- **Copying a data object writes what it holds from `pos` on**, in some blocks. -/
theorem copyData_calls {path : Text} {data : Bytes} : ∀ {fuel pos : ℕ} {w w' : ArchiveWriter}
    {s s' : Session}, w.Sound L s → path ≠ w.path → s.nodes path = some (.obj data) →
    copyData L E path fuel pos w s = .ok (none, w', s') →
    ∃ bufs : List Bytes, w'.calls = w.calls ++ bufs.map .data ∧ bufs.flatten = data.drop pos := by
  intro fuel
  induction fuel with
  | zero => exact fun _ _ _ h => by cases h
  | succ fuel ih =>
    intro pos w w' s s' hw hne hs h
    have hread : ∀ {buf : Bytes} {t : Session},
        s.objRead E path pos aBufSize = (.ok buf, t) →
        t.nodes = s.nodes ∧ ∃ n, buf = (data.drop pos).take n ∧ 0 < n := by
      intro buf t hr
      obtain ⟨hnodes, hbuf⟩ := Session.objRead_spec hr
      obtain ⟨data', n, hdata', hbuf, hn⟩ := hbuf buf rfl
      obtain rfl := Node.obj.inj (Option.some.inj (hs.symm.trans hdata'))
      exact ⟨hnodes, n, hbuf, hn (by decide)⟩
    unfold copyData at h
    split at h
    · cases Except.ok.inj h
    · rename_i t hr
      obtain ⟨-, n, hbuf, hn⟩ := hread hr
      obtain ⟨rfl, -⟩ := Prod.mk.inj (Prod.mk.inj (Except.ok.inj h)).2
      refine ⟨[], by simp, ?_⟩
      rcases List.take_eq_nil_iff.mp hbuf.symm with h0 | h0
      · omega
      · exact h0.symm
    · rename_i b buf t hr
      obtain ⟨hnodes, n, hbuf, -⟩ := hread hr
      have hw₁ : w.Sound L t := hw.of_nodes (by rw [hnodes])
      split at h
      · rename_i w₁ s₁ hcall
        obtain ⟨hsound, hpath, -, hcalls, hframe⟩ := ArchiveWriter.call_spec hw₁ hcall
        have hs₁ : s₁.nodes path = some (.obj data) := by rw [hframe path hne, hnodes, hs]
        obtain ⟨bufs, hbufs, hflat⟩ := ih hsound (hpath ▸ hne) hs₁ h
        refine ⟨(b :: buf) :: bufs, ?_, ?_⟩
        · rw [hbufs, hcalls, List.append_assoc]
          rfl
        · have hprefix : b :: buf <+: data.drop pos := hbuf ▸ List.take_prefix _ _
          rw [List.flatten_cons, hflat, ← List.drop_drop]
          exact (List.prefix_append_drop hprefix).symm
      · cases Except.ok.inj h

/-- **The entry of one index item.** -/
theorem writeItem_entries {origin : Text} {fuel : ℕ} {item : Json} {w w' : ArchiveWriter}
    {s s' : Session} (hw : w.Sound L s) (hapart : Apart origin w.path item)
    (h : writeItem L E origin fuel item w s = .ok (none, w', s')) :
    entriesOf w'.calls = entriesOf w.calls ++ [entryOf origin s.nodes item] := by
  unfold writeItem at h
  split at h
  · exact nomatch h
  · rename_i type htype
    split at h
    · rename_i hcoll
      split at h
      · exact nomatch Except.ok.inj h
      · rename_i w₁ s₁ hcall
        obtain ⟨rfl, rfl⟩ := Prod.mk.inj (Prod.mk.inj (Except.ok.inj h)).2
        obtain ⟨-, -, -, hcalls, -⟩ := ArchiveWriter.call_spec hw hcall
        rw [hcalls, entryOf, if_pos (htype.trans (congrArg some hcoll))]
        exact entriesOf_append (collHeader item) [] _
    · rename_i hcoll
      have htype' : item.stringMember "type".toList ≠ some "coll".toList :=
        fun heq => hcoll (Option.some.inj (htype.symm.trans heq))
      split at h
      · exact nomatch Except.ok.inj h
      · rename_i w₁ s₁ hcall
        obtain ⟨hsound, hpath, -, hcalls, hframe⟩ := ArchiveWriter.call_spec hw hcall
        split at h
        · exact nomatch h
        · rename_i name hname
          have hne := hapart name hname htype'
          dsimp only at h
          split at h
          · exact nomatch Except.ok.inj h
          · rename_i s₂ hopen
            obtain ⟨hnodes, -, hobj⟩ := Session.objOpen_read_spec hopen
            obtain ⟨data, hdata⟩ := hobj rfl
            obtain ⟨bufs, hbufs, hflat⟩ := copyData_calls
              (hsound.of_nodes (by rw [hnodes])) (hpath ▸ hne) (by rw [hnodes, hdata]) h
            have hcontent : content s.nodes (Text.rstrcpy (Text.join origin name)) = data := by
              unfold content
              rw [← hframe _ hne, hdata]
            rw [hbufs, hcalls, List.append_assoc, entryOf, if_neg htype', hname, Option.elim_some,
              hcontent, ← List.drop_zero (l := data), ← hflat]
            exact entriesOf_append (dataObjHeader item) bufs _

theorem writeItems_entries {origin : Text} {fuel : ℕ} {items : List Json} :
    ∀ {w w' : ArchiveWriter} {s s' : Session}, w.Sound L s →
      (∀ item ∈ items, Apart origin w.path item) →
      writeItems L E origin fuel items w s = .ok (none, w', s') →
      entriesOf w'.calls = entriesOf w.calls ++ items.map (entryOf origin s.nodes) := by
  induction items with
  | nil =>
    intro w w' s s' _ _ h
    obtain ⟨rfl, -⟩ := Prod.mk.inj (Prod.mk.inj (Except.ok.inj h)).2
    exact (List.append_nil _).symm
  | cons item items ih =>
    intro w w' s s' hw hapart h
    rw [List.forall_mem_cons] at hapart
    unfold writeItems at h
    split at h
    · rename_i w₁ s₁ hitem
      obtain ⟨hsound, hpath, -, -, hframe⟩ := keeps_writeItem hw hitem
      have hentry := writeItem_entries hw hapart.1 hitem
      have hrest := ih hsound (hpath ▸ hapart.2) h
      have hsame : items.map (entryOf origin s₁.nodes) = items.map (entryOf origin s.nodes) :=
        List.map_congr_left (fun i hi => entryOf_congr (hapart.2 i hi) hframe)
      rw [hrest, hentry, hsame, List.append_assoc]
      rfl
    · rename_i hstop
      exact absurd h (hstop _ _)

/-- **The entries that are written up to the last item.** -/
theorem writeAll_entries {a : WriteArchive} {fuel : ℕ} {path : Text} {zip : Bool}
    {w : ArchiveWriter} {s t : Session} (hnew : s.nodes path = some (.obj []))
    (hapart : ∀ item ∈ a.list, Apart a.origin path item)
    (h : writeAll L E J a fuel (.start path zip) s = .ok (none, w, t)) :
    entriesOf w.calls
      = (indexHeader (J.text 2 (a.indexJson J)), J.text 2 (a.indexJson J))
        :: a.list.map (entryOf a.origin s.nodes) := by
  unfold writeAll at h
  rw [dumps_indexJson] at h
  dsimp only at h
  split at h
  · exact nomatch Except.ok.inj h
  · rename_i w₁ s₁ hheader
    obtain ⟨hsound₁, hpath₁, -, hcalls₁, hframe₁⟩ :=
      ArchiveWriter.call_spec (.start hnew zip) hheader
    split at h
    · exact nomatch Except.ok.inj h
    · rename_i w₂ s₂ hdata
      obtain ⟨hsound₂, hpath₂, -, hcalls₂, hframe₂⟩ := ArchiveWriter.call_spec hsound₁ hdata
      have hpath : w₂.path = path := hpath₂.trans hpath₁
      have hitems := writeItems_entries hsound₂ (hpath ▸ hapart) h
      have hindex : entriesOf w₂.calls
          = [(indexHeader (J.text 2 (a.indexJson J)), J.text 2 (a.indexJson J))] := by
        rw [hcalls₂, hcalls₁]
        exact congrArg (fun d => [(_, d)]) (List.append_nil _)
      have hsame : a.list.map (entryOf a.origin s₂.nodes)
          = a.list.map (entryOf a.origin s.nodes) := by
        refine List.map_congr_left (fun i hi => entryOf_congr (hapart i hi) (fun p hp => ?_))
        exact (hframe₂ p (hpath₁ ▸ hp)).trans (hframe₁ p hp)
      rw [hitems, hindex, hsame]
      rfl

end Entries

end WriteArchive

/-! ## The items of a tree -/

namespace ArchiveCall

/-- The member `size` of the item of a data object. -/
theorem item_size (J : Jansson) (name : Text) (size : BitVec 64) (created modified : ℤ)
    (owner zone checksum : Text) (attributes acl : Option Json) :
    ((addDataObj name size created modified owner zone checksum attributes acl).item J).integerMember
      "size".toList = size.toInt := by
  have hsize : ∀ n v w : Option Json, ((((Json.object []).objectSetNew "name".toList n).objectSetNew
      "type".toList v).objectSetNew "size".toList w).objectGet "size".toList = w := by
    intro n v w
    refine Json.objectGet_objectSetNew (by simp only [Json.isObject_objectSetNew]; rfl) ?_ w
    simp (disch := decide) only [Json.objectGet_objectSetNew_of_ne]
    rfl
  have hget : ((addDataObj name size created modified owner zone checksum attributes acl).item
      J).objectGet "size".toList = some (.integer size.toInt) := by
    unfold item
    simp (disch := decide) only [WriteArchive.dataObjItem, WriteArchive.setLists,
      objectGet_ite_objectSetNew, Json.objectGet_objectSetNew_of_ne]
    exact hsize _ _ _
  rw [Json.integerMember, hget]
  rfl

/-- The name of an item can be read. -/
theorem item_nameText {J : Jansson} {c : ArchiveCall} (h : J.utf8 c.name = true) :
    (c.item J).stringMember "name".toList = some c.name := by
  rw [Json.stringMember, item_name, Jansson.string_of_utf8 h]
  rfl

/-- What the entry for a call leaves where it is extracted. -/
def node (coll : Text) (nodes : Text → Option Node) (c : ArchiveCall) : Node :=
  if c.isColl then .coll else .obj (WriteArchive.content nodes (Text.join coll c.name))

end ArchiveCall

namespace CollTree

/-- The relative paths of all items of a tree. -/
def paths : CollTree → List Text :=
  enumerate (fun pre o => [pre ++ o.name]) (fun name _ => [name]) []

/-- The calls of a tree that make an index item. -/
def archived (K : Catalog) (J : Jansson) (path coll : Text) (t : CollTree) : List ArchiveCall :=
  (t.calls K J).filter (fun c => !c.isSelf path coll)

/-- The names of a tree are valid UTF-8. -/
def Utf8Names (J : Jansson) (t : CollTree) : Prop := ∀ name ∈ t.paths, J.utf8 name = true

/-- **The data objects of a tree at `coll` are stored**, under paths that fit, and as
many bytes of each as the catalog says. The archive itself is left out. -/
def Sized (path coll : Text) (nodes : Text → Option Node) (t : CollTree) : Prop :=
  ∀ p ∈ t.archivable path coll, (Text.join coll p.1).length < Text.maxNameLen
    ∧ ∃ data, nodes (Text.join coll p.1) = some (.obj data)
      ∧ (BitVec.ofInt 64 p.2.size).toInt = data.length

section Archived

variable {K : Catalog} {J : Jansson} {path coll : Text} {t : CollTree}

/-- The names of the calls are the relative paths of the items. -/
theorem names_calls_perm (hs : t.Shows K coll) (hrow : t.OneRowEach) :
    ((t.calls K J).map ArchiveCall.name).Perm t.paths := by
  refine ((calls_perm (J := J) [] hs).map _).trans (List.Perm.of_eq ?_)
  rw [List.map_eq_flatMap, enumerate_flatMap, paths]
  refine enumerate_congr (fun c hc pre o ho => ?_) (fun _ _ _ => rfl) hrow []
  rw [DataObject.calls, DataObject.rows_of_oneRow (hc o ho)]
  rfl

/-- A call that makes an item is for a collection of the tree, or for a data object
that is archived. -/
theorem mem_archived (hs : t.Shows K coll) {c : ArchiveCall} (hc : c ∈ t.archived K J path coll) :
    (c.isColl = true ∧ ∃ p ∈ t.collections, c = p.2.call J p.1)
      ∨ (c.isColl = false ∧ ∃ p ∈ t.archivable path coll, c ∈ rowCalls J p) := by
  obtain ⟨hmem, hself⟩ := List.mem_filter.mp hc
  refine (name_of_mem_calls hs hmem).imp_right ?_
  rintro ⟨hkind, p, hp, hrow⟩
  refine ⟨hkind, p, List.mem_filter.mpr ⟨hp, ?_⟩, hrow⟩
  obtain ⟨r, -, rfl⟩ := List.mem_map.mp hrow
  exact hself

theorem name_mem_paths (hs : t.Shows K coll) (hrow : t.OneRowEach) {c : ArchiveCall}
    (hc : c ∈ t.archived K J path coll) : c.name ∈ t.paths :=
  (names_calls_perm hs hrow).mem_iff.mp (List.mem_map_of_mem (List.mem_filter.mp hc).1)

end Archived

end CollTree

/-! ## A creation that returns 0 -/

/-- A creation that returns 0 has stored the whole archive, where nothing is refused. -/
theorem complete_of_willing {L : Libarchive} {E : Irods} (hE : E.Willing) {J : Jansson}
    {Q : GenQuery} {fuel : ℕ} {archive coll : Text} {resourceIn : MsParam} {s : Session} {id : ℤ}
    (hid : Q.collIds (nameCond coll) = [id]) (hpos : 0 ≤ id) {r : Created}
    (h : msiArchiveCreate L E J Q fuel (.ofText archive) (.ofText coll) resourceIn s = .ok r)
    (hstatus : r.status = .num 0) :
    ∀ w, r.writer = some w → w.Complete L r.session := by
  obtain ⟨resource, s₁, c, hopen, -, hconstruct, hzero, hwriter, hsession⟩ :=
    msiArchiveCreate_zero hid hpos h hstatus
  have hnew : s₁.nodes (Text.rstrcpy archive) = some (.obj []) := by
    rw [createArchive_nodes hopen]
    exact Function.update_self ..
  obtain ⟨t, hall, hfreed, hfree⟩ := WriteArchive.construct_zero (.start hnew _) hconstruct hzero
  have hsound := (WriteArchive.keeps_writeAll (.start hnew _) hall).1
  intro w hw
  obtain rfl := Option.some.inj (hwriter.symm.trans hw)
  rw [hsession, if_pos hfreed, hfree]
  exact (ArchiveWriter.free_spec hsound rfl).1.mp (ArchiveWriter.free_of_willing hE hsound)
