import IrodsMicroservices.ArchiveEntries
import IrodsMicroservices.ArchiveLayout

/-!
# Archives that have been produced

What an extraction finds in an archive that comes from `msiArchiveCreate`, whatever
calls of `addDataObj` and `addColl` have made its index. Such an archive is constructed
with status 0 and stored whole, and the sizes in the catalog are those of what is stored
(`Produced`); `produced_of_create` is the creation of the archive of a tree.

Nothing is assumed of the names. An item whose name is not UTF-8 has none in the index,
and then the construction of a data object does not get that far (`writeAll_named`).
-/

open Libarchive Catalog

/-! ## The index, read back -/

theorem Jansson.valid_of_string {J : Jansson} {s : Text} :
    ∀ v, J.string s = some v → v.Valid := by
  intro v hv
  rw [Jansson.string_eq_some hv]
  exact .string s

namespace ArchiveCall

/-- An item is a valid value, where its lists are. -/
theorem valid_item (J : Jansson) {c : ArchiveCall} (hattributes : ∀ v, c.attributes = some v → v.Valid)
    (hacl : ∀ v, c.acl = some v → v.Valid) : (c.item J).Valid := by
  have hinteger : ∀ (i : ℤ) (v : Json), some (Json.integer i) = some v → v.Valid := by
    rintro i v ⟨⟩
    exact .integer i
  cases c with
  | addColl name created modified owner zone attributes acl =>
    exact (((((((Json.Valid.empty.objectSetNew _ Jansson.valid_of_string).objectSetNew _
      Jansson.valid_of_string).objectSetNew _ (hinteger _)).objectSetNew _ (hinteger _)).objectSetNew _
      Jansson.valid_of_string).objectSetNew _ hattributes).objectSetNew _ hacl)
  | addDataObj name size created modified owner zone checksum attributes acl =>
    refine Json.Valid.objectSetNew (Json.Valid.objectSetNew ?_ _ hattributes) _ hacl
    have howner := ((((((Json.Valid.empty.objectSetNew "name".toList (v := J.string name)
      Jansson.valid_of_string).objectSetNew "type".toList (v := J.string "dataObj".toList)
      Jansson.valid_of_string).objectSetNew "size".toList (hinteger size.toInt)).objectSetNew
      "created".toList (hinteger created)).objectSetNew "modified".toList
      (hinteger modified)).objectSetNew "owner".toList
      (v := J.string (owner ++ "#".toList ++ zone)) Jansson.valid_of_string)
    split
    · exact howner.objectSetNew _ Jansson.valid_of_string
    · exact howner

end ArchiveCall

/-- A list made of rows is a valid value, where its entries are. -/
theorem Catalog.valid_listOf {α : Type} {entry : α → Option Json} {rows : List α}
    (h : ∀ r v, entry r = some v → v.Valid) : ∀ v, listOf entry rows = some v → v.Valid := by
  intro v hv
  unfold listOf at hv
  split at hv
  · exact nomatch hv
  · obtain rfl := Option.some.inj hv
    refine .array (fun e he => ?_)
    obtain ⟨r, -, hr⟩ := List.mem_filterMap.mp he
    exact h r e hr

theorem Catalog.valid_attrEntry (J : Jansson) (r : Avu) (v : Json) (h : attrEntry J r = some v) :
    v.Valid := by
  obtain rfl := Option.some.inj h
  exact ((Json.Valid.empty.objectSetNew _ Jansson.valid_of_string).objectSetNew _
    Jansson.valid_of_string).objectSetNew _ Jansson.valid_of_string

theorem Catalog.valid_aclEntry (J : Jansson) (r : AclRow) (v : Json) (h : aclEntry J r = some v) :
    v.Valid := Jansson.valid_of_string v h

namespace WriteArchive

/-- The document of `INDEX.json` is a valid value. -/
theorem valid_indexJson (J : Jansson) {a : WriteArchive} (hlist : ∀ item ∈ a.list, item.Valid) :
    (a.indexJson J).Valid := by
  refine ((Json.Valid.empty.objectSetNew _ Jansson.valid_of_string).objectSetNew _ ?_).objectSetNew _ ?_
  · rintro v ⟨⟩
    exact .integer _
  · rintro v ⟨⟩
    exact .array hlist

/-- The items are in the document of `INDEX.json`. -/
theorem indexJson_items (J : Jansson) (a : WriteArchive) :
    (a.indexJson J).objectGet "items".toList = some (.array a.list) := by
  refine Json.objectGet_objectSetNew (by simp only [Json.isObject_objectSetNew]; rfl) ?_ _
  simp (disch := decide) only [Json.objectGet_objectSetNew_of_ne]
  rfl

/-- The size is in the document of `INDEX.json`, as a signed number. -/
theorem indexJson_size (J : Jansson) (a : WriteArchive) :
    (a.indexJson J).integerMember "size".toList = a.dataSize.toInt := by
  have hget : (a.indexJson J).objectGet "size".toList = some (.integer a.dataSize.toInt) := by
    unfold indexJson
    simp (disch := decide) only [Json.objectGet_objectSetNew_of_ne]
    refine Json.objectGet_objectSetNew (by simp only [Json.isObject_objectSetNew]; rfl) ?_ _
    simp (disch := decide) only [Json.objectGet_objectSetNew_of_ne]
    rfl
  rw [Json.integerMember, hget]
  rfl

/-- **What stands in the document of `INDEX.json`.** -/
theorem indexJson_spec {J : Jansson} {a : WriteArchive} (horigin : J.utf8 a.origin = true)
    (hlist : ∀ item ∈ a.list, item.Valid) :
    (a.indexJson J).Valid ∧ (a.indexJson J).stringMember "collection".toList = some a.origin
      ∧ (a.indexJson J).objectGet "items".toList = some (.array a.list) := by
  refine ⟨valid_indexJson J hlist, ?_, indexJson_items J a⟩
  have hget : (a.indexJson J).objectGet "collection".toList = J.string a.origin := by
    unfold indexJson
    simp (disch := decide) only [Json.objectGet_objectSetNew_of_ne]
    exact Json.objectGet_objectSetNew rfl rfl _
  rw [Json.stringMember, hget, Jansson.string_of_utf8 horigin]
  rfl

end WriteArchive

/-! ## What an archive has been produced from -/

namespace ArchiveCall

/-- **A data object is stored with the size of its call**, under a path that fits. -/
def Sized (coll : Text) (nodes : Text → Option Node) : ArchiveCall → Prop
  | addColl .. => True
  | addDataObj name size .. => (Text.join coll name).length < Text.maxNameLen
      ∧ ∃ data, nodes (Text.join coll name) = some (.obj data) ∧ size.toInt = data.length

/-- The lists of a call are jansson values. -/
def ListsValid (c : ArchiveCall) : Prop :=
  (∀ v, c.attributes = some v → v.Valid) ∧ ∀ v, c.acl = some v → v.Valid

end ArchiveCall

/-- The calls that make an index item. -/
def indexed (archive coll : Text) (calls : List ArchiveCall) : List ArchiveCall :=
  calls.filter (fun c => !c.isSelf archive coll)

/-- **An archive that has been produced** from some calls, where `nodes` is what is
stored: its index lists their items, and it has been constructed with status 0 and is
stored whole. -/
structure Produced (L : Libarchive) (J : Jansson) (archive coll : Text)
    (calls : List ArchiveCall) (nodes : Text → Option Node) (data : Bytes) : Prop where
  fits : archive.length < Text.maxNameLen
  lists : ∀ c ∈ indexed archive coll calls, c.ListsValid
  sized : ∀ c ∈ indexed archive coll calls, c.Sized coll nodes
  constructed : ∃ (E : Irods) (fuel : ℕ) (zip : Bool) (s : Session)
    (c : WriteArchive.Constructed), s.nodes = Function.update nodes archive (some (.obj []))
      ∧ ((WriteArchive.create archive coll).run J calls).construct L E J fuel
        (.start archive zip) s = .ok c
      ∧ c.status = .num 0 ∧ c.writer.Complete L c.session
      ∧ c.session.nodes archive = some (.obj data)

namespace WriteArchive

/-- A data object that has been written has a name. -/
theorem writeItems_named {L : Libarchive} {E : Irods} {origin : Text} {fuel : ℕ}
    {items : List Json} : ∀ {w w' : ArchiveWriter} {s s' : Session},
      writeItems L E origin fuel items w s = .ok (none, w', s') →
      ∀ item ∈ items, item.stringMember "type".toList ≠ some "coll".toList →
        ∃ name, item.stringMember "name".toList = some name := by
  induction items with
  | nil => exact fun _ => List.forall_mem_nil _
  | cons item items ih =>
    intro w w' s s' h
    unfold writeItems at h
    split at h
    · rename_i w₁ s₁ hitem
      refine List.forall_mem_cons.mpr ⟨fun htype => ?_, ih h⟩
      unfold writeItem at hitem
      split at hitem
      · exact nomatch hitem
      · rename_i type htype'
        rw [if_neg (fun heq => htype (htype'.trans (congrArg some heq)))] at hitem
        split at hitem
        · exact nomatch Except.ok.inj hitem
        · split at hitem
          · exact nomatch hitem
          · rename_i name hname
            exact ⟨name, hname⟩
    · rename_i hstop
      exact absurd h (hstop _ _)

theorem writeAll_named {L : Libarchive} {E : Irods} {J : Jansson} {a : WriteArchive} {fuel : ℕ}
    {w w' : ArchiveWriter} {s s' : Session}
    (h : writeAll L E J a fuel w s = .ok (none, w', s')) :
    ∀ item ∈ a.list, item.stringMember "type".toList ≠ some "coll".toList →
      ∃ name, item.stringMember "name".toList = some name := by
  unfold writeAll at h
  rw [dumps_indexJson] at h
  dsimp only at h
  split at h
  · exact nomatch Except.ok.inj h
  · split at h
    · exact nomatch Except.ok.inj h
    · exact writeItems_named h

end WriteArchive

namespace ArchiveCall

variable {J : Jansson}

/-- The name in an item is that of its call. -/
theorem name_of_stringMember {c : ArchiveCall} {name : Text}
    (h : (c.item J).stringMember "name".toList = some name) : c.name = name := by
  unfold Json.stringMember at h
  rw [item_name] at h
  obtain ⟨v, hv, hname⟩ := Option.bind_eq_some_iff.mp h
  rw [Jansson.string_eq_some hv] at hname
  exact Option.some.inj hname

/-- The type of an item tells its kind. -/
theorem type_item_coll_iff (hJ : J.Lawful) (c : ArchiveCall) :
    (c.item J).stringMember "type".toList = some "coll".toList ↔ c.isColl = true := by
  rw [item_typeText hJ]
  cases c with
  | addColl => exact iff_of_true rfl rfl
  | addDataObj =>
    have htype : some "dataObj".toList ≠ some "coll".toList := by decide
    exact iff_of_false htype Bool.false_ne_true

/-- The item of a collection has no size. -/
theorem item_size_coll (J : Jansson) (name : Text) (created modified : ℤ) (owner zone : Text)
    (attributes acl : Option Json) :
    ((addColl name created modified owner zone attributes acl).item J).integerMember
      "size".toList = 0 := by
  have hget : ((addColl name created modified owner zone attributes acl).item J).objectGet
      "size".toList = none := by
    unfold item
    simp (disch := decide) only [WriteArchive.collItem, WriteArchive.setLists,
      Json.objectGet_objectSetNew_of_ne]
    rfl
  rw [Json.integerMember, hget]
  rfl

/-- **The entry of a call is as its header says**, as long as the size in its item, and what
the call is about when it is extracted. -/
theorem entry_spec (hJ : J.Lawful) {coll : Text} {nodes : Text → Option Node} {c : ArchiveCall}
    (hsized : c.Sized coll nodes)
    (hname : c.isColl = false → ∃ name, (c.item J).stringMember "name".toList = some name) :
    Faithful (WriteArchive.entryOf coll nodes (c.item J))
      ∧ ((WriteArchive.entryOf coll nodes (c.item J)).2.length : ℤ)
        = (c.item J).integerMember "size".toList
      ∧ entryNode (WriteArchive.entryOf coll nodes (c.item J)) = c.node coll nodes := by
  have htype := type_item_coll_iff hJ c
  unfold WriteArchive.entryOf
  cases c with
  | addColl =>
    rw [if_pos (htype.mpr rfl), item_size_coll]
    exact ⟨rfl, rfl, rfl⟩
  | addDataObj name size =>
    obtain ⟨hfits, data, hdata, hsize⟩ := hsized
    obtain ⟨name', hname'⟩ := hname rfl
    obtain rfl : name = name' := name_of_stringMember hname'
    have hcontent : WriteArchive.content nodes (Text.join coll name) = data := by
      unfold WriteArchive.content
      rw [hdata]
    rw [if_neg (fun h => nomatch htype.mp h), hname', Option.elim_some, Text.rstrcpy_of_fits hfits,
      hcontent, item_size]
    refine ⟨?_, hsize.symm, (congrArg Node.obj hcontent).symm⟩
    show (data.length : ℤ) = (BitVec.ofInt 64 (Json.integerMember _ _)).toInt
    rw [item_size, BitVec.ofInt_toInt, hsize]

end ArchiveCall

namespace Produced

variable {L : Libarchive} {J : Jansson} {archive coll : Text} {calls : List ArchiveCall}
  {nodes : Text → Option Node} {data : Bytes}

/-- The items of the calls are valid values. -/
theorem valid_items (h : Produced L J archive coll calls nodes data) :
    ∀ item ∈ (indexed archive coll calls).map (ArchiveCall.item J), item.Valid := by
  intro item hitem
  obtain ⟨c, hc, rfl⟩ := List.mem_map.mp hitem
  exact ArchiveCall.valid_item J (h.lists c hc).1 (h.lists c hc).2

/-- **What has been written into a produced archive**: the index, and the entry of every
call, each as its header says. -/
theorem entries (hJ : J.Lawful) (h : Produced L J archive coll calls nodes data) :
    let a := (WriteArchive.create archive coll).run J calls
    ∃ zip calls', data = L.whole zip calls'
      ∧ entriesOf calls'
        = (WriteArchive.indexHeader (J.text 2 (a.indexJson J)), J.text 2 (a.indexJson J))
          :: (indexed archive coll calls).map (fun c => WriteArchive.entryOf coll nodes (c.item J))
      ∧ ∀ c ∈ indexed archive coll calls,
        Faithful (WriteArchive.entryOf coll nodes (c.item J))
              ∧ ((WriteArchive.entryOf coll nodes (c.item J)).2.length : ℤ)
            = (c.item J).integerMember "size".toList
          ∧ entryNode (WriteArchive.entryOf coll nodes (c.item J)) = c.node coll nodes := by
  intro a
  obtain ⟨E, fuel, zip, s, r, hstart, hconstruct, hzero, hcomplete, hdata⟩ := h.constructed
  have hlist : a.list = (indexed archive coll calls).map (ArchiveCall.item J)
      ∧ a.origin = coll := by
    rw [show a = _ from WriteArchive.run_eq ..]
    exact ⟨rfl, rfl⟩
  have hnew : s.nodes archive = some (.obj []) := by
    rw [hstart]
    exact Function.update_self ..
  obtain ⟨t, hall, -, -⟩ := WriteArchive.construct_zero (.start hnew zip) hconstruct hzero
  have hpath := (WriteArchive.keeps_writeAll (.start hnew zip) hall).2.1
  -- what is written for a call is not the archive itself
  have hapart : ∀ item ∈ a.list, WriteArchive.Apart coll archive item := by
    rw [hlist.1]
    intro item hitem name hname htype
    obtain ⟨c, hc, rfl⟩ := List.mem_map.mp hitem
    have hsized := h.sized c hc
    obtain rfl : c.name = name := ArchiveCall.name_of_stringMember hname
    have hself := (List.mem_filter.mp hc).2
    cases c with
    | addColl => exact absurd ((ArchiveCall.type_item_coll_iff hJ _).mpr rfl) htype
    | addDataObj name size =>
      have hfits : (Text.join coll name).length < Text.maxNameLen := hsized.1
      rw [show ArchiveCall.name _ = name from rfl, Text.rstrcpy_of_fits hfits]
      rintro rfl
      simp [ArchiveCall.isSelf, ArchiveCall.isColl, ArchiveCall.name] at hself
  have hnamed : ∀ c ∈ indexed archive coll calls, c.isColl = false →
      ∃ name, (c.item J).stringMember "name".toList = some name := by
    intro c hc hkind
    refine WriteArchive.writeAll_named hall _ (hlist.1 ▸ List.mem_map_of_mem hc) (fun htype => ?_)
    exact absurd (((ArchiveCall.type_item_coll_iff hJ c).mp htype).symm.trans hkind) (by simp)
  have hentries := WriteArchive.writeAll_entries hnew (hlist.2.symm ▸ hapart) hall
  refine ⟨r.writer.zip, r.writer.calls, ?_, ?_, fun c hc =>
    ArchiveCall.entry_spec hJ (h.sized c hc) (hnamed c hc)⟩
  · have hstored := hcomplete.1
    rw [hpath] at hstored
    exact Node.obj.inj (Option.some.inj (hdata.symm.trans hstored))
  · rw [hentries, hlist.2, hlist.1, List.map_map]
    refine congrArg _ (List.map_congr_left (fun c hc => ?_))
    refine WriteArchive.entryOf_congr (hapart _ (hlist.1 ▸ List.mem_map_of_mem hc)) (fun p hp => ?_)
    rw [hstart, Function.update_of_ne hp]

/-- The entry of a call leaves what the call is about. -/
theorem entryNode_entryOf (hJ : J.Lawful) (h : Produced L J archive coll calls nodes data)
    {c : ArchiveCall} (hc : c ∈ indexed archive coll calls) :
    entryNode (WriteArchive.entryOf coll nodes (c.item J)) = c.node coll nodes := by
  obtain ⟨-, -, -, -, hcalls⟩ := h.entries hJ
  exact (hcalls c hc).2.2

/-- **The headers after the index are those of the calls.** -/
theorem header (hL : L.ReadsBack) (hJ : J.Lawful) (h : Produced L J archive coll calls nodes data)
    {k : ℕ} {c : ArchiveCall} (hc : (indexed archive coll calls)[k]? = some c) :
    ∃ e, L.entryAt data (1 + k) = .ok e
      ∧ Restores (WriteArchive.entryOf coll nodes (c.item J)) e := by
  obtain ⟨zip, calls', rfl, hentries, hcalls⟩ := h.entries hJ
  refine hL.entry zip calls' ?_ (1 + k) _ ?_
  · rw [hentries]
    refine List.forall_mem_cons.mpr ⟨rfl, fun p hp => ?_⟩
    obtain ⟨c, hc, rfl⟩ := List.mem_map.mp hp
    exact (hcalls c hc).1
  · rw [hentries, Nat.add_comm, List.getElem?_cons_succ, List.getElem?_map, hc]
    rfl

/-- **The items found in the index of a produced archive** are those of the calls in their
order, up to `json_equal`. -/
theorem opened_equal (hL : L.ReadsBack) (hJ : J.Lawful)
    (h : Produced L J archive coll calls nodes data) {E : Irods} {path : Text} {b : ReadArchive}
    {s s₁ : Session} (hopen : openArchive J E (L.entryAt data) path s = .ok (some b, s₁)) :
    List.Forall₂ (fun c item => (c.item J).Valid ∧ item.Valid ∧ (c.item J).equal item = true)
      (indexed archive coll calls) b.items
      ∧ b.dataSize = ((indexed archive coll calls).map ArchiveCall.blocks).sum := by
  set a := (WriteArchive.create archive coll).run J calls with ha
  have hrun : a.list = (indexed archive coll calls).map (ArchiveCall.item J)
      ∧ a.dataSize = ((indexed archive coll calls).map ArchiveCall.blocks).sum := by
    rw [ha, WriteArchive.run_eq]
    exact ⟨rfl, BitVec.zero_add _⟩
  have hvalid : (a.indexJson J).Valid :=
    WriteArchive.valid_indexJson J (hrun.1.symm ▸ h.valid_items)
  obtain ⟨zip, calls', rfl, hentries, hcalls⟩ := h.entries hJ
  have hall : ∀ p ∈ entriesOf calls', Faithful p := by
    rw [hentries]
    refine List.forall_mem_cons.mpr ⟨rfl, fun p hp => ?_⟩
    obtain ⟨c, hc, rfl⟩ := List.mem_map.mp hp
    exact (hcalls c hc).1
  obtain ⟨e, hheader, -, hfile, hdata, -, -⟩ := hL.entry zip calls' hall 0 _ (by rw [hentries]; rfl)
  -- the document that is read is the one that has been written
  obtain ⟨-, -, e', json, hheader', -, hloads, -, hlist, hsize⟩ := openArchive_spec hopen
  obtain rfl := HeaderResult.ok.inj (hheader.symm.trans hheader')
  have hlen : e.size = (J.text 2 (a.indexJson J)).length := (hfile rfl).2
  have hbuf : e.blocks.flatten = J.text 2 (a.indexJson J) := hdata
  rw [hbuf, hlen, Int.toNat_natCast, List.take_length,
    Text.ofBuffer_of_no_nul (hJ.text_nul 2 _)] at hloads
  obtain ⟨json', hloads', hequal⟩ :=
    hJ.loads_text 2 hvalid (WriteArchive.isContainer_indexJson J a)
  obtain rfl := Option.some.inj (hloads'.symm.trans hloads)
  have hjson := hJ.loads_valid hloads
  obtain ⟨items, hget, heq⟩ := Json.objectGet_of_equal hequal (WriteArchive.indexJson_items J a)
  have hforall := Json.elems_of_equal heq
  have hvalids := (hjson.objectGet hget).elems
  constructor
  · have hitems : b.items = items.elems := by
      unfold ReadArchive.items
      rw [hlist, hget]
      rfl
    rw [hitems]
    rw [show (Json.array a.list).elems = _ from hrun.1] at hforall
    refine List.forall₂_iff_get.mpr ⟨?_, fun i h₁ h₂ => ?_⟩
    · rw [← hforall.length_eq, List.length_map]
    · have hi : i < ((indexed archive coll calls).map (ArchiveCall.item J)).length := by
        rwa [List.length_map]
      have hpair := hforall.get hi h₂
      have hv := h.valid_items _ (List.get_mem _ ⟨i, hi⟩)
      have hw := hvalids _ (List.get_mem _ ⟨i, h₂⟩)
      rw [List.get_eq_getElem, List.getElem_map] at hpair hv
      exact ⟨hv, hw, hpair⟩
  · rw [hsize, ← Json.integerMember_of_equal hvalid hjson hequal, WriteArchive.indexJson_size,
      BitVec.ofInt_toInt, hrun.2]

/-- **What is found in the index of a produced archive**: the items of the calls in their
order, up to `json_equal`, and the sum of their blocks. -/
theorem opened (hL : L.ReadsBack) (hJ : J.Lawful) (h : Produced L J archive coll calls nodes data)
    {E : Irods} {path : Text} {b : ReadArchive} {s s₁ : Session}
    (hopen : openArchive J E (L.entryAt data) path s = .ok (some b, s₁)) :
    List.Forall₂ (fun c item => (∀ key, item.stringMember key = (c.item J).stringMember key)
        ∧ ∀ key, item.integerMember key = (c.item J).integerMember key)
      (indexed archive coll calls) b.items
      ∧ b.dataSize = ((indexed archive coll calls).map ArchiveCall.blocks).sum := by
  obtain ⟨hitems, hsize⟩ := h.opened_equal hL hJ hopen
  refine ⟨hitems.imp (fun c item hpair => ?_), hsize⟩
  obtain ⟨hv, hw, hequal⟩ := hpair
  exact ⟨fun key => (Json.stringMember_of_equal hv hw hequal key).symm,
    fun key => (Json.integerMember_of_equal hv hw hequal key).symm⟩

/-- What is found at a place of the index is the item of the call at that place. -/
theorem call_of_item (hL : L.ReadsBack) (hJ : J.Lawful)
    (h : Produced L J archive coll calls nodes data) {E : Irods} {path : Text} {b : ReadArchive}
    {s s₁ : Session} (hopen : openArchive J E (L.entryAt data) path s = .ok (some b, s₁)) {k : ℕ}
    {item : Json} (hk : b.items[k]? = some item) :
    ∃ c, (indexed archive coll calls)[k]? = some c
      ∧ (∀ key, item.stringMember key = (c.item J).stringMember key)
      ∧ ∀ key, item.integerMember key = (c.item J).integerMember key := by
  obtain ⟨hitems, -⟩ := h.opened hL hJ hopen
  obtain ⟨hlt, rfl⟩ := List.getElem?_eq_some_iff.mp hk
  have hlt' : k < (indexed archive coll calls).length := hitems.length_eq ▸ hlt
  exact ⟨_, List.getElem?_eq_getElem hlt', hitems.get hlt' hlt⟩

end Produced

/-! ## Archives that have been created -/

/-- **A collection that can be archived**: the catalog shows its tree, with one row for
each data object and paths of their own, all names are valid UTF-8, and the data
objects are stored with the sizes the catalog has. -/
structure Source (Q : GenQuery) (J : Jansson) (archive coll : Text) (t : CollTree)
    (nodes : Text → Option Node) : Prop where
  shows : t.Shows Q.toCatalog coll
  id : Q.collIds (nameCond coll) = [t.coll.id]
  id_nonneg : 0 ≤ t.coll.id
  oneRow : t.OneRowEach
  distinct : t.paths.Nodup
  utf8_coll : J.utf8 coll = true
  utf8 : t.Utf8Names J
  sized : t.Sized archive coll nodes

/-- **The archive of a tree has been produced**, from the calls of the tree, where its
creation has returned 0, no query has failed and the archive is stored whole. -/
theorem produced_of_create {L : Libarchive} {E : Irods} {J : Jansson} {Q : GenQuery} {fuel : ℕ}
    {archive coll : Text} {resourceIn : MsParam} {t : CollTree} {s : Session} {r : Created}
    (hsource : Source Q J archive coll t s.nodes) (hfits : archive.length < Text.maxNameLen)
    (hcreate : msiArchiveCreate L E J Q fuel (.ofText archive) (.ofText coll) resourceIn s = .ok r)
    (hstatus : r.status = .num 0) (hfine : Q.Fine r.walk)
    (hcomplete : ∀ w, r.writer = some w → w.Complete L r.session) :
    ∃ data, r.session.nodes archive = some (.obj data)
      ∧ Produced L J archive coll (t.calls Q.toCatalog J) s.nodes data := by
  obtain ⟨hs, hid, hpos, -, -, -, -, hsized⟩ := hsource
  obtain ⟨resource, s₁, c, hopen, hwalk, hconstruct, hzero, hwriter, hsession⟩ :=
    msiArchiveCreate_zero hid hpos hcreate hstatus
  have hcalls : r.walk.calls = t.calls Q.toCatalog J := by
    rw [GenQuery.walk_calls hs hwalk hfine, GenQuery.collID_calls]
    rfl
  have hnodes := createArchive_nodes hopen
  rw [hcalls] at hconstruct
  rw [Text.rstrcpy_of_fits hfits] at hnodes hconstruct
  have hnew : s₁.nodes archive = some (.obj []) := by
    rw [hnodes]
    exact Function.update_self ..
  obtain ⟨_, hall, hfreed, -⟩ := WriteArchive.construct_zero (.start hnew _) hconstruct hzero
  rw [if_pos hfreed] at hsession
  have hwhole := hcomplete _ hwriter
  have hdata := hwhole.1
  rw [(WriteArchive.keeps_writeAll (.start hnew _) hall).2.1] at hdata
  refine ⟨_, hdata, hfits, fun c hc => ?_, fun c hc => ?_, E, fuel, isZip archive, s₁, c, hnodes,
    hconstruct, hzero, hsession ▸ hwhole, hsession ▸ hdata⟩
  -- the attributes and the permissions of a call have been built from rows
  · rcases CollTree.mem_archived hs hc with ⟨-, p, -, rfl⟩ | ⟨-, p, -, hmem⟩
    · exact ⟨valid_listOf (valid_attrEntry J), valid_listOf (valid_aclEntry J)⟩
    · obtain ⟨row, -, rfl⟩ := List.mem_map.mp hmem
      exact ⟨valid_listOf (valid_attrEntry J), valid_listOf (valid_aclEntry J)⟩
  -- a data object has been stored with the size that the catalog has for it
  · rcases CollTree.mem_archived hs hc with ⟨-, p, -, rfl⟩ | ⟨-, p, hp, hmem⟩
    · exact trivial
    · obtain ⟨hfitsP, object, hobject, hsize⟩ := hsized p hp
      obtain ⟨row, hrow, rfl⟩ := List.mem_map.mp hmem
      obtain ⟨_, -, rfl⟩ := List.mem_map.mp hrow
      exact ⟨hfitsP, object, hobject, hsize⟩
