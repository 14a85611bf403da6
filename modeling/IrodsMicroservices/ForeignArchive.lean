import IrodsMicroservices.RoundTrip

/-!
# Archives from elsewhere

`Archive::open` asks of an archive that its first entry is called `INDEX.json` and holds
a document jansson loads. Everything else is taken as `Archive::construct` leaves it: that
the document has the members that are read from it, and that the entries after it stand
in the order of its items. An archive that has been repacked, or made to do harm, need not
be like that.

A member that is missing, or is no string, is a null pointer. Which documents are
extracted without one, whatever comes after them, is a property of the document alone
(`Json.Guarded`), and `[]` is none of them (`hostile_index_iff`, `empty_array_crashes`).

Items and entries are paired by position, and the name of an entry is not looked at. So
what is written at the path of an item is the entry at its position
(`entries_by_position`), which is another item's entry where two of them have changed
places (`swapped_entries_swap_contents`).
-/

/-! ## What the code reads unguarded -/

/-- An attribute with a name is followed by one with a name: `strcmp` takes the name of
an attribute where the one before has left its own. -/
def Follows (prev name : Option Text) : Prop := prev.isSome → name.isSome

/-- The attributes whose names can be compared. -/
def Json.AttributesGuarded (list : Json) : Prop :=
  (list.elems.map (fun json => json.stringMember "name".toList)).IsChain Follows

/-- **An item that can be extracted**: it has a string for its name and for its type, and
its attributes can be set. -/
structure Json.ItemGuarded (item : Json) : Prop where
  name : (item.stringMember "name".toList).isSome
  type : (item.stringMember "type".toList).isSome
  attributes : ∀ list, item.objectGet "attributes".toList = some list → list.AttributesGuarded

/-- **A document that can be extracted**: the collection is a string, and what is found
in its items can be extracted. -/
structure Json.Guarded (json : Json) : Prop where
  collection : (json.stringMember "collection".toList).isSome
  items : ∀ list, json.objectGet "items".toList = some list → ∀ item ∈ list.elems, item.ItemGuarded

/-- **The first entry of an archive with a document.** -/
structure IndexEntry (J : Jansson) (e : ReadEntry) (json : Json) : Prop where
  pathname : e.pathname = some "INDEX.json".toList
  size : 0 ≤ e.size
  read : (e.blocks.flatten.take e.size.toNat).length = e.size.toNat
  loads : J.loads (Text.ofBuffer (e.blocks.flatten.take e.size.toNat)) = some json

section Guarded

variable {J : Jansson} {E : Irods} {headers : ℕ → HeaderResult} {resource extract : Option Text}
  {path file : Text} {space : ℤ}

/-- The attributes are gone through to their end exactly where their names can be
compared, each with the one before. -/
theorem attributesLoop_ok_iff {isColl : Bool} : ∀ (list : List Json) (prev : Option Text)
    (s : Session), (∃ s', attributesLoop E file isColl prev list s = .ok s')
      ↔ (prev :: list.map (fun json => json.stringMember "name".toList)).IsChain Follows := by
  intro list
  induction list with
  | nil => exact fun prev s => iff_of_true ⟨s, rfl⟩ (List.isChain_singleton _)
  | cons json rest ih =>
    intro prev s
    rw [List.map_cons, List.isChain_cons_cons]
    cases hname : json.stringMember "name".toList with
    | none =>
      cases prev with
      | none =>
        -- a name that is missing is compared with the one before it, if that is there
        rw [and_iff_right (show Follows none none from id), attributesLoop, hname, ih none]
        exact fun _ h _ => by cases h
      | some n =>
        rw [attributesLoop]
        · exact iff_of_false (by rintro ⟨_, ⟨⟩⟩)
            (fun h => absurd (h.1 rfl) Bool.false_ne_true)
        · exact hname
    | some n =>
      rw [and_iff_right (show Follows prev (some n) from fun _ => rfl), attributesLoop, hname,
        ih (some n)]
      exact fun _ _ h => by cases hname.symm.trans h

theorem attributes_ok_iff {isColl : Bool} {list : Json} {s : Session} :
    (∃ s', attributes E file isColl list s = .ok s') ↔ list.AttributesGuarded := by
  rw [attributes, attributesLoop_ok_iff, List.isChain_cons]
  exact and_iff_right (fun _ _ h => nomatch h)

/-- The metadata is set exactly where the type is a string and the attributes can be
set. -/
theorem setMetadata_ok_iff {json : Json} {s : Session} :
    (∃ s', setMetadata E file json s = .ok s') ↔ (json.stringMember "type".toList).isSome
      ∧ ∀ list, json.objectGet "attributes".toList = some list → list.AttributesGuarded := by
  unfold setMetadata
  cases json.stringMember "type".toList with
  | none => exact iff_of_false (fun ⟨_, h⟩ => nomatch h) (fun h => absurd h.1 Bool.false_ne_true)
  | some type =>
    rw [and_iff_right (show (some type).isSome from rfl)]
    dsimp only
    cases json.objectGet "attributes".toList with
    | none => exact iff_of_true ⟨_, rfl⟩ (fun _ h => nomatch h)
    | some list =>
      rw [attributes_ok_iff]
      exact ⟨fun h _ hlist => Option.some.inj hlist ▸ h, fun h => h list rfl⟩

/-- **The loop comes to an end** where all items can be extracted. -/
theorem extractLoop_ok : ∀ {items : List Json} (n : ℕ) (status : Status) (s : Session),
    (∀ item ∈ items, item.ItemGuarded) →
    ∃ r, extractLoop E headers resource extract path space items n status s = .ok r := by
  intro items
  induction items with
  | nil => exact fun n status s _ => ⟨_, rfl⟩
  | cons item items ih =>
    intro n status s h
    rw [List.forall_mem_cons] at h
    obtain ⟨hguarded, hrest⟩ := h
    obtain ⟨name, hname⟩ := Option.isSome_iff_exists.mp hguarded.name
    rw [extractLoop]
    split
    · rw [hname]
      dsimp only
      split
      · exact ih _ _ _ hrest
      · split
        · exact ⟨_, rfl⟩
        · split
          · rename_i fault hentry
            unfold extractEntry at hentry
            split at hentry
            · cases hentry
            · rename_i t _
              obtain ⟨u, hu⟩ : ∃ u, setMetadata E (Text.join path name) item t = .ok u :=
                setMetadata_ok_iff.mpr ⟨hguarded.type, hguarded.attributes⟩
              rw [hu] at hentry
              cases hentry
          · exact ⟨_, rfl⟩
          · rename_i t _
            split
            · exact ⟨_, rfl⟩
            · obtain ⟨r, hr⟩ := ih (n + 1) (.num 0) t hrest
              rw [hr]
              exact ⟨_, rfl⟩
    · exact ⟨_, rfl⟩

/-- **A loop that reaches all items** comes to an end only where all of them can be
extracted: every entry is a directory, and the collections are there. -/
theorem guarded_of_extractLoop
    (hheaders : ∀ n, ∃ e, headers (n + 1) = .ok e ∧ e.isDir = true) :
    ∀ {items : List Json} {n : ℕ} {status : Status} {s : Session} {r : Extraction},
      (∀ name, s.nodes (Text.rstrcpy (Text.join path name)) = some .coll) →
      extractLoop .obliging headers resource none path space items (n + 1) status s = .ok r →
      ∀ item ∈ items, item.ItemGuarded := by
  intro items
  induction items with
  | nil => exact fun _ _ _ hitem => absurd hitem List.not_mem_nil
  | cons item items ih =>
    intro n status s r hthere h
    obtain ⟨e, hheader, hdir⟩ := hheaders n
    cases hname : item.stringMember "name".toList with
    | none =>
      rw [extractLoop_nameless hheader hname] at h
      cases h
    | some name =>
      rw [extractLoop_cons hheader hname] at h
      unfold extractEntry at h
      rw [Sample.extractItem_existing hdir (hthere name)] at h
      dsimp only at h
      -- the directory is there already, so what is left of the turn is the metadata
      cases hset : setMetadata .obliging (Text.join path name) item
          (s.record (.collCreate (Text.rstrcpy (Text.join path name)) false) false) with
      | error fault =>
        rw [hset] at h
        cases h
      | ok t =>
        rw [hset] at h
        obtain ⟨htype, hattributes⟩ := setMetadata_ok_iff.mp ⟨t, hset⟩
        refine List.forall_mem_cons.mpr ⟨⟨by rw [hname]; rfl, htype, hattributes⟩, ?_⟩
        have hnodes : t.nodes = s.nodes := (setMetadata_frame hset).1
        dsimp only [Except.map] at h
        cases hloop : extractLoop .obliging headers resource none path space items (n + 1 + 1)
            (.num 0) t with
        | error fault =>
          rw [hloop] at h
          cases h
        | ok r' => exact ih (fun name => by rw [hnodes]; exact hthere name) hloop

/-- What opening an archive comes to, where its first entry holds a document. -/
theorem openArchive_of_index {e : ReadEntry} {json : Json} (he : IndexEntry J e json)
    (hheader : headers 0 = .ok e) (archive : Text) (s : Session) :
    openArchive J E headers archive s
      = match s.objOpen E (Text.rstrcpy archive) false none with
        | (.error _, t) => .ok (none, t)
        | (.ok (), t) =>
          match json.stringMember "collection".toList with
          | none => .error .nullPointer
          | some origin =>
            .ok (some ⟨Text.rstrcpy archive, origin, json.objectGet "items".toList,
              BitVec.ofInt 64 (json.integerMember "size".toList),
              Text.ofBuffer (e.blocks.flatten.take e.size.toNat)⟩, t) := by
  obtain ⟨hpathname, hsize, hread, hloads⟩ := he
  unfold openArchive
  cases horigin : json.stringMember "collection".toList <;>
    cases s.objOpen E (Text.rstrcpy archive) false none with
    | mk r t =>
      cases r with
      | error f => rfl
      | ok u =>
        rw [hheader]
        dsimp only
        rw [hpathname]
        dsimp only
        rw [if_neg (not_not_intro rfl), if_neg (not_lt.mpr hsize), if_neg (not_not_intro hread),
          hloads]
        dsimp only
        rw [horigin]

/-- An archive that opens has a first entry with a document, which says what is open. -/
theorem indexEntry_of_open {archive : Text} {a : ReadArchive} {s s₁ : Session}
    (h : openArchive J E headers archive s = .ok (some a, s₁)) :
    ∃ e json, headers 0 = .ok e ∧ IndexEntry J e json
      ∧ json.stringMember "collection".toList = some a.origin
      ∧ a = ⟨Text.rstrcpy archive, a.origin, json.objectGet "items".toList,
        BitVec.ofInt 64 (json.integerMember "size".toList),
        Text.ofBuffer (e.blocks.flatten.take e.size.toNat)⟩ := by
  have hobj := (openArchive_spec h).1
  unfold openArchive at h
  rw [hobj] at h
  dsimp only at h
  cases hheader : headers 0 with
  | ok e =>
    rw [hheader] at h
    dsimp only at h
    cases hname : e.pathname with
    | none =>
      rw [hname] at h
      cases h
    | some name =>
      rw [hname] at h
      dsimp only at h
      split at h
      · cases h
      rename_i hindex
      split at h
      · cases h
      rename_i hsize
      split at h
      · cases h
      rename_i hread
      cases hloads : J.loads (Text.ofBuffer (e.blocks.flatten.take e.size.toNat)) with
      | none =>
        rw [hloads] at h
        cases h
      | some json =>
        rw [hloads] at h
        dsimp only at h
        cases horigin : json.stringMember "collection".toList with
        | none =>
          rw [horigin] at h
          cases h
        | some origin =>
          rw [horigin] at h
          obtain rfl := Option.some.inj (Prod.mk.inj (Except.ok.inj h)).1
          exact ⟨e, json, rfl, ⟨hname.trans (congrArg some (not_not.mp hindex)), not_lt.mp hsize,
            not_not.mp hread, hloads⟩, horigin, rfl⟩
  | _ =>
    rw [hheader] at h
    cases h

/-- **What is open does not depend on who opens it.** -/
theorem openArchive_again {E' : Irods} {archive : Text} {a : ReadArchive} {s s₁ s' t : Session}
    (h : openArchive J E headers archive s = .ok (some a, s₁))
    (hobj : s'.objOpen E' (Text.rstrcpy archive) false none = (.ok (), t)) :
    openArchive J E' headers archive s' = .ok (some a, t) := by
  obtain ⟨e, json, hheader, hindex, horigin, ha⟩ := indexEntry_of_open h
  rw [openArchive_of_index hindex hheader, hobj]
  dsimp only
  rw [horigin]
  dsimp only
  rw [← ha]

/-- The items of an archive that opens are those of the document. -/
theorem IndexEntry.mem_items {e : ReadEntry} {json : Json} (he : IndexEntry J e json)
    (hheader : headers 0 = .ok e) {archive : Text} {a : ReadArchive} {s s₁ : Session}
    (hopen : openArchive J E headers archive s = .ok (some a, s₁)) {item : Json} :
    item ∈ a.items ↔ ∃ list, json.objectGet "items".toList = some list ∧ item ∈ list.elems := by
  obtain ⟨-, -, e', json', hheader', -, hloads, -, hlist, -⟩ := openArchive_spec hopen
  obtain rfl := HeaderResult.ok.inj (hheader.symm.trans hheader')
  obtain rfl := Option.some.inj (he.loads.symm.trans hloads)
  unfold ReadArchive.items
  rw [hlist]
  cases json.objectGet "items".toList with
  | none => exact iff_of_false List.not_mem_nil (fun ⟨_, h, _⟩ => nomatch h)
  | some list =>
    exact ⟨fun h => ⟨list, rfl, h⟩, fun ⟨_, hlist, h⟩ => by rwa [Option.some.inj hlist]⟩

/-- **Where a null pointer comes from**: from opening the archive, or from the loop. -/
theorem msiArchiveExtract_error {rows : SpaceQuery}
    {archiveIn pathIn extractIn resourceIn : MsParam} {s : Session} {fault : Fault}
    (h : msiArchiveExtract J E rows headers archiveIn pathIn extractIn resourceIn s
      = .error fault) :
    ∃ archive path, openArchive J E headers archive s = .error fault
      ∨ ∃ a s₁ space status t, openArchive J E headers archive s = .ok (some a, s₁)
        ∧ extractLoop E headers resourceIn.parseMspForStr extractIn.parseMspForStr path space
          a.items 1 status t = .error fault := by
  unfold msiArchiveExtract at h
  dsimp only at h
  rw [MsParam.ite_isStr, MsParam.ite_isStr] at h
  split at h
  · exact nomatch h
  · split at h
    · exact nomatch h
    · split at h
      · rename_i archive path _ _
        refine ⟨archive, path, ?_⟩
        split at h
        · rename_i hopen
          obtain rfl := Except.error.inj h
          exact .inl hopen
        · exact nomatch h
        · rename_i a s₁ hopen
          split at h
          · exact nomatch h
          · split at h
            · rename_i hloop
              obtain rfl := Except.error.inj h
              exact .inr ⟨a, s₁, _, _, _, hopen, hloop⟩
            · exact nomatch h
      · exact nomatch h

theorem msiArchiveExtract_of_error {rows : SpaceQuery}
    {archiveIn pathIn extractIn resourceIn : MsParam} {archive : Text} {s : Session}
    {fault : Fault} (harchive : archiveIn.parseMspForStr = some archive)
    (hpath : pathIn.parseMspForStr = some path)
    (hopen : openArchive J E headers archive s = .error fault) :
    msiArchiveExtract J E rows headers archiveIn pathIn extractIn resourceIn s = .error fault := by
  unfold msiArchiveExtract
  dsimp only
  rw [MsParam.isStr_of_parse harchive, MsParam.isStr_of_parse hpath, harchive, hpath]
  simp only [Bool.not_true, Bool.false_eq_true, if_false]
  rw [hopen]

/-- Without a resource there is no check, and an extraction that returns has come to the
end of its loop. -/
theorem extractLoop_of_ok {rows : SpaceQuery} {archiveIn pathIn extractIn resourceIn : MsParam}
    {archive : Text} {a : ReadArchive} {s s₁ : Session} {r : Extracted}
    (harchive : archiveIn.parseMspForStr = some archive)
    (hpath : pathIn.parseMspForStr = some path) (hresource : resourceIn.parseMspForStr = none)
    (hopen : openArchive J E headers archive s = .ok (some a, s₁))
    (h : msiArchiveExtract J E rows headers archiveIn pathIn extractIn resourceIn s = .ok r) :
    ∃ loop, extractLoop E headers none extractIn.parseMspForStr path 0 a.items 1 (.num 0)
      (s₁.collCreate E (Text.rstrcpy path) false).2 = .ok loop := by
  rw [msiArchiveExtract_eq harchive hpath hopen, hresource] at h
  change Except.map _ (extractLoop E headers none extractIn.parseMspForStr path 0 a.items 1
    (.num 0) (s₁.collCreate E (Text.rstrcpy path) false).2) = .ok r at h
  cases hloop : extractLoop E headers none extractIn.parseMspForStr path 0 a.items 1 (.num 0)
      (s₁.collCreate E (Text.rstrcpy path) false).2 with
  | error fault =>
    rw [hloop] at h
    exact nomatch h
  | ok loop => exact ⟨loop, rfl⟩

/-- **A document that can be extracted is extracted without a null pointer**, or its
archive is not opened. -/
theorem msiArchiveExtract_ok {e : ReadEntry} {json : Json} (he : IndexEntry J e json)
    (hguarded : json.Guarded) (rows : SpaceQuery) (hheader : headers 0 = .ok e)
    (archiveIn pathIn extractIn resourceIn : MsParam) (s : Session) :
    ∃ r, msiArchiveExtract J E rows headers archiveIn pathIn extractIn resourceIn s = .ok r := by
  cases h : msiArchiveExtract J E rows headers archiveIn pathIn extractIn resourceIn s with
  | ok r => exact ⟨r, rfl⟩
  | error fault =>
    obtain ⟨archive, path, hopen | ⟨a, s₁, space, status, t, hopen, hloop⟩⟩ :=
      msiArchiveExtract_error h
    -- opening goes wrong only where the collection is no string
    · obtain ⟨origin, horigin⟩ := Option.isSome_iff_exists.mp hguarded.collection
      rw [openArchive_of_index he hheader, horigin] at hopen
      split at hopen
      · exact nomatch hopen
      · exact nomatch hopen
    · obtain ⟨r, hr⟩ : ∃ r, extractLoop E headers resourceIn.parseMspForStr
          extractIn.parseMspForStr path space a.items 1 status t = .ok r := by
        refine extractLoop_ok 1 status t (fun item hitem => ?_)
        obtain ⟨list, hlist, hmem⟩ := (he.mem_items hheader hopen).mp hitem
        exact hguarded.items list hlist item hmem
      exact nomatch hr.symm.trans hloop

end Guarded

/-! ## The documents that can be extracted -/

namespace Sample

/-- An archive with an index and nothing but directories after it. -/
def directories (e : ReadEntry) : ℕ → HeaderResult
  | 0 => .ok e
  | _ + 1 => .ok ⟨none, true, 0, [], false⟩

/-- A namespace with a collection at every path, the archive excepted. -/
def allThere : Session :=
  .fresh (fun p => if p = "/z/x.tar".toList then some (.obj []) else some .coll)

/-- Below `/t` there are collections only. -/
theorem allThere_below (name : Text) :
    allThere.nodes (Text.rstrcpy (Text.join "/t".toList name)) = some .coll := by
  unfold allThere Session.fresh
  dsimp only
  refine if_neg (fun h => ?_)
  have hsecond := congrArg (fun p => p[1]?) h
  exact absurd (Option.some.inj hsecond) (by decide)

end Sample

/-- **Which documents cannot crash an extraction.** Whatever comes after the first entry,
whatever is asked for and whatever the server answers, an extraction returns a status,
exactly where the document can be extracted. -/
theorem hostile_index_iff {J : Jansson} {e : ReadEntry} {json : Json} (he : IndexEntry J e json) :
    (∀ (E : Irods) (rows : SpaceQuery) (headers : ℕ → HeaderResult)
        (archiveIn pathIn extractIn resourceIn : MsParam) (s : Session), headers 0 = .ok e →
        ∃ r, msiArchiveExtract J E rows headers archiveIn pathIn extractIn resourceIn s = .ok r)
      ↔ json.Guarded := by
  -- one run is enough: every entry is a directory and every collection is there, so that
  -- nothing stops the loop before it has been through all items
  refine ⟨fun h => ?_, fun hguarded E rows headers archiveIn pathIn extractIn resourceIn s hheader =>
    msiArchiveExtract_ok he hguarded rows hheader archiveIn pathIn extractIn resourceIn s⟩
  have harchive : (MsParam.ofText "/z/x.tar".toList).parseMspForStr = some "/z/x.tar".toList := rfl
  have hpath : (MsParam.ofText "/t".toList).parseMspForStr = some "/t".toList := rfl
  obtain ⟨r, hr⟩ := h .obliging (fun _ => .ok []) (Sample.directories e) (.ofText "/z/x.tar".toList)
    (.ofText "/t".toList) ⟨none, none⟩ ⟨none, none⟩ Sample.allThere rfl
  have hobj : Sample.allThere.objOpen .obliging (Text.rstrcpy "/z/x.tar".toList) false none
      = (.ok (), Sample.allThere.record (.objOpen "/z/x.tar".toList false none) true) := rfl
  have hheader : Sample.directories e 0 = .ok e := rfl
  have hopen := openArchive_of_index (E := .obliging) he hheader "/z/x.tar".toList Sample.allThere
  rw [hobj] at hopen
  cases horigin : json.stringMember "collection".toList with
  | none =>
    rw [horigin] at hopen
    exact nomatch (msiArchiveExtract_of_error harchive hpath hopen).symm.trans hr
  | some origin =>
    rw [horigin] at hopen
    refine ⟨by rw [horigin]; rfl, fun list hlist item hitem => ?_⟩
    obtain ⟨loop, hloop⟩ := extractLoop_of_ok harchive hpath rfl hopen hr
    have hthere : (Sample.allThere.record (.objOpen "/z/x.tar".toList false none) true).nodes
        (Text.rstrcpy "/t".toList) = some .coll := rfl
    rw [Sample.collCreate_existing hthere] at hloop
    refine guarded_of_extractLoop (fun _ => ⟨_, rfl, rfl⟩) ?_ hloop item
      ((he.mem_items hheader hopen).mpr ⟨list, hlist, hitem⟩)
    exact Sample.allThere_below

namespace Sample

/-- The entry of an index with a document holds it. -/
theorem indexEntry_document {v : Json} (hv : v.Valid) (hc : v.isContainer = true) :
    IndexEntry JsonText.codec (documentEntry v) v where
  pathname := rfl
  size := Int.natCast_nonneg _
  read := by
    show (([JsonText.codec.text 2 v].flatten.take _).length : ℕ) = _
    rw [List.flatten_singleton, documentEntry, Int.toNat_natCast, List.take_length]
  loads := by
    show JsonText.codec.loads (Text.ofBuffer ([JsonText.codec.text 2 v].flatten.take _)) = some v
    rw [List.flatten_singleton, documentEntry, Int.toNat_natCast, List.take_length,
      Text.ofBuffer_of_no_nul (JsonText.codec_lawful.text_nul 2 v),
      JsonText.codec_loads_text 2 hv hc]

end Sample

/-- The document of a single collection. -/
theorem hostile_index_sample :
    (∀ (E : Irods) (rows : SpaceQuery) (headers : ℕ → HeaderResult)
        (archiveIn pathIn extractIn resourceIn : MsParam) (s : Session),
        headers 0 = .ok Sample.indexEntry →
        ∃ r, msiArchiveExtract JsonText.codec E rows headers archiveIn pathIn extractIn resourceIn s
          = .ok r)
      ↔ Sample.index.Guarded :=
  hostile_index_iff (Sample.indexEntry_document Sample.index_valid rfl)

/-- **A document that crashes an extraction**: an array without elements. -/
theorem empty_array_crashes :
    ¬ ∀ (J : Jansson) (E : Irods) (rows : SpaceQuery) (headers : ℕ → HeaderResult) (e : ReadEntry)
      (json : Json) (archiveIn pathIn extractIn resourceIn : MsParam) (s : Session),
      J.Lawful → IndexEntry J e json → headers 0 = .ok e →
      ∃ r, msiArchiveExtract J E rows headers archiveIn pathIn extractIn resourceIn s = .ok r := by
  intro h
  have hindex : IndexEntry JsonText.codec (Sample.documentEntry (.array [])) (.array []) :=
    Sample.indexEntry_document (.array (List.forall_mem_nil _)) rfl
  obtain ⟨r, hr⟩ := h JsonText.codec .obliging (fun _ => .ok [])
    (Sample.directories (Sample.documentEntry (.array []))) _ _ (.ofText "/z/x.tar".toList)
    (.ofText "/t".toList) ⟨none, none⟩ ⟨none, none⟩ Sample.allThere JsonText.codec_lawful hindex rfl
  have hheader : Sample.directories (Sample.documentEntry (.array [])) 0 = .ok _ := rfl
  have hopen := openArchive_of_index (E := .obliging) hindex hheader "/z/x.tar".toList
    Sample.allThere
  exact nomatch (msiArchiveExtract_of_error rfl rfl hopen).symm.trans hr

/-! ## Items and entries -/

/-- What an entry leaves where it is extracted. -/
def ReadEntry.node (e : ReadEntry) : Node := if e.isDir then .coll else .obj e.blocks.flatten

/-- **An archive that may have been repacked**: its items have names of their own, and the
entries after the index carry exactly the names and the kinds of the items, in any order.
All their data can be read. -/
structure Repacked (headers : ℕ → HeaderResult) (a : ReadArchive) (names : List Text)
    (entries : List ReadEntry) : Prop where
  items : a.items.map (fun item => item.stringMember "name".toList) = names.map some
  distinct : names.Nodup
  same : (entries.map (fun e => (e.pathname, e.isDir))).Perm (a.items.map (fun item =>
    (item.stringMember "name".toList,
      decide (item.stringMember "type".toList = some "coll".toList))))
  read : ∀ k e, entries[k]? = some e → headers (1 + k) = .ok e
  data : ∀ e ∈ entries, [] ∉ e.blocks ∧ e.fails = false

namespace Repacked

variable {headers : ℕ → HeaderResult} {a : ReadArchive} {names : List Text}
  {entries : List ReadEntry}

/-- There are as many entries as names. -/
theorem length_eq (h : Repacked headers a names entries) : entries.length = names.length := by
  have hitems := congrArg List.length h.items
  rw [List.length_map, List.length_map] at hitems
  have hentries := h.same.length_eq
  rw [List.length_map, List.length_map] at hentries
  exact hentries.trans hitems

/-- An entry that carries a name carries that of an item. -/
theorem mem_names (h : Repacked headers a names entries) {e : ReadEntry} (he : e ∈ entries)
    {name : Text} (hname : e.pathname = some name) : name ∈ names := by
  have hmem := h.same.mem_iff.mp (List.mem_map_of_mem (f := fun e => (e.pathname, e.isDir)) he)
  obtain ⟨item, hitem, heq⟩ := List.mem_map.mp hmem
  have hin : some name ∈ names.map some := by
    rw [← h.items, ← hname, ← (Prod.mk.inj heq).1]
    exact List.mem_map_of_mem (f := fun item : Json => item.stringMember "name".toList) hitem
  exact (List.mem_map_of_injective (Option.some_injective _)).mp hin

/-- **The entries are laid out by position**, where an extraction of all items returns no
error: the loop has gone through names and entries side by side. -/
theorem node {J : Jansson} {E : Irods} {rows : SpaceQuery} {archive target : Text}
    {archiveIn pathIn extractIn resourceIn : MsParam} {s s₁ : Session} {r : Extracted}
    (h : Repacked headers a names entries) (hE : E.Honest)
    (harchive : archiveIn.parseMspForStr = some archive)
    (hpath : pathIn.parseMspForStr = some target) (hall : extractIn.parseMspForStr = none)
    (hopen : openArchive J E headers archive s = .ok (some a, s₁))
    (hfits : ∀ name ∈ names, (Text.join target name).length < Text.maxNameLen)
    (hrun : msiArchiveExtract J E rows headers archiveIn pathIn extractIn resourceIn s = .ok r)
    (hstatus : r.status.isNeg = false) {k : ℕ} {name : Text} {e : ReadEntry}
    (hname : names[k]? = some name) (he : entries[k]? = some e) :
    r.session.nodes (Text.join target name) = some e.node := by
  obtain ⟨archive', target', b, s₂, loop, harchive', htarget', hopen', -, hloop, rfl⟩ :=
    msiArchiveExtract_spec hrun hstatus
  obtain rfl := Option.some.inj (harchive'.symm.trans harchive)
  obtain rfl := Option.some.inj (htarget'.symm.trans hpath)
  obtain ⟨hb, rfl⟩ := Prod.mk.inj (Except.ok.inj (hopen'.symm.trans hopen))
  obtain rfl := Option.some.inj hb
  rw [hall] at hloop
  set described : List (EntryHeader × Bytes) := entries.map
    (fun e => (⟨e.pathname, e.isDir, 0, e.size, none⟩, e.blocks.flatten)) with hdescribed
  have hlen : names.length = described.length := by
    rw [hdescribed, List.length_map, h.length_eq]
  have hnames : List.Forall₂ (fun item l => item.stringMember "name".toList = some l.1) b.items
      (names.zip described) := by
    have hmap : List.Forall₂ (fun item name => item.stringMember "name".toList = some name)
        b.items names := by
      rw [← List.forall₂_map_right_iff (f := some) (R := fun (item : Json) name =>
        item.stringMember "name".toList = name), ← h.items, List.forall₂_map_right_iff]
      exact List.forall₂_same.mpr (fun _ _ => rfl)
    rw [← List.map_fst_zip hlen.le, List.forall₂_map_right_iff] at hmap
    exact hmap
  obtain ⟨hlaid, -⟩ := extractLoop_lay hE hnames (fun k l hl => by
      obtain ⟨-, hl⟩ := List.getElem?_zip_eq_some.mp hl
      rw [hdescribed, List.getElem?_map] at hl
      obtain ⟨e, he, heq⟩ := Option.map_eq_some_iff.mp hl
      obtain ⟨hblocks, hfails⟩ := h.data e (List.mem_of_getElem? he)
      refine ⟨e, h.read k e he, ?_⟩
      rw [← heq]
      exact ⟨rfl, fun _ => ⟨rfl, rfl⟩, rfl, hblocks, hfails⟩)
    (fun l hl => hfits l.1 (List.of_mem_zip hl).1) hloop hstatus
  have hmem : (name, e.node) ∈ (names.zip described).map (fun l => (l.1, entryNode l.2)) := by
    have hl : described[k]?
        = some (⟨e.pathname, e.isDir, 0, e.size, none⟩, e.blocks.flatten) := by
      rw [hdescribed, List.getElem?_map, he]
      rfl
    have hzip := List.mem_of_getElem? (l := names.zip described)
      (List.getElem?_zip_eq_some (z := (name, _)).mpr ⟨hname, hl⟩)
    exact List.mem_map_of_mem
      (f := fun l : Text × (EntryHeader × Bytes) => (l.1, entryNode l.2)) hzip
  have hnodup : (((names.zip described).map (fun l => (l.1, entryNode l.2))).map Prod.fst).Nodup := by
    rw [List.map_map]
    exact (List.map_fst_zip hlen.le).symm ▸ h.distinct
  rw [(Session.objClose_frame _ _ _).1, hlaid]
  exact lay_of_mem hnodup hmem _

end Repacked

/-- **What is written is the entry at the position of the item.** It is the entry that
carries the name of the item for all items exactly where, at every position, the entry that
carries the name leaves the same. -/
theorem entries_by_position {J : Jansson} {E : Irods} {rows : SpaceQuery}
    {headers : ℕ → HeaderResult} {archive target : Text}
    {archiveIn pathIn extractIn resourceIn : MsParam} {a : ReadArchive} {names : List Text}
    {entries : List ReadEntry} {s s₁ : Session} {r : Extracted} (hE : E.Honest)
    (harchive : archiveIn.parseMspForStr = some archive)
    (hpath : pathIn.parseMspForStr = some target) (hall : extractIn.parseMspForStr = none)
    (hopen : openArchive J E headers archive s = .ok (some a, s₁))
    (hrepacked : Repacked headers a names entries)
    (hfits : ∀ name ∈ names, (Text.join target name).length < Text.maxNameLen)
    (hrun : msiArchiveExtract J E rows headers archiveIn pathIn extractIn resourceIn s = .ok r)
    (hstatus : r.status.isNeg = false) :
    (∀ (k : ℕ) (name : Text) (e : ReadEntry), names[k]? = some name → entries[k]? = some e →
      r.session.nodes (Text.join target name) = some e.node)
    ∧ ((∀ e ∈ entries, ∀ name, e.pathname = some name →
        r.session.nodes (Text.join target name) = some e.node)
      ↔ ∀ (k : ℕ) (name : Text) (e : ReadEntry), names[k]? = some name → entries[k]? = some e →
        ∀ e' ∈ entries, e'.pathname = some name → e'.node = e.node) := by
  have hnode : ∀ (k : ℕ) (name : Text) (e : ReadEntry), names[k]? = some name →
      entries[k]? = some e → r.session.nodes (Text.join target name) = some e.node :=
    fun k name e hname he =>
      hrepacked.node hE harchive hpath hall hopen hfits hrun hstatus hname he
  refine ⟨hnode, fun h k name e hname he e' hmem hcarries => ?_, fun h e hmem name hcarries => ?_⟩
  · exact Option.some.inj ((h e' hmem name hcarries).symm.trans (hnode k name e hname he))
  · obtain ⟨k, hk, hname⟩ := List.getElem_of_mem (hrepacked.mem_names hmem hcarries)
    have hname := List.getElem?_eq_some_iff.mpr ⟨hk, hname⟩
    have hk' : k < entries.length := hrepacked.length_eq ▸ hk
    have he := List.getElem?_eq_getElem hk'
    rw [hnode k name _ hname he, h k name _ hname he e hmem hcarries]

namespace Sample

/-- The item of a data object. -/
def objItem (name : Text) : Json :=
  .object [("name".toList, .string name), ("type".toList, .string "dataObj".toList)]

/-- An index with two data objects. -/
def twoObjs : Json :=
  .object [("collection".toList, .string "/z/c".toList), ("size".toList, .integer 0),
    ("items".toList, .array [objItem "a".toList, objItem "b".toList])]

theorem twoObjs_valid : twoObjs.Valid := by
  have hitem : ∀ name, (objItem name).Valid := by
    intro name
    have hkeys : ["name".toList, "type".toList].Nodup := by decide
    refine .object hkeys ?_
    simp only [List.mem_cons, List.not_mem_nil, or_false, forall_eq_or_imp, forall_eq]
    exact ⟨.string _, .string _⟩
  refine .object (by decide) ?_
  simp only [List.mem_cons, List.not_mem_nil, or_false, forall_eq_or_imp, forall_eq]
  refine ⟨.string _, .integer _, .array ?_⟩
  simp only [List.mem_cons, List.not_mem_nil, or_false, forall_eq_or_imp, forall_eq]
  exact ⟨hitem _, hitem _⟩

/-- Their entries, which have changed places. -/
def swapped : List ReadEntry :=
  [⟨some "b".toList, false, 1, ["y".toList], false⟩,
    ⟨some "a".toList, false, 1, ["x".toList], false⟩]

/-- The archive of the two. -/
def swappedHeaders : ℕ → HeaderResult
  | 0 => .ok (documentEntry twoObjs)
  | 1 => .ok ⟨some "b".toList, false, 1, ["y".toList], false⟩
  | 2 => .ok ⟨some "a".toList, false, 1, ["x".toList], false⟩
  | _ => .eof

/-- The archive opens, and its extraction leaves under either name what the other one
has. -/
theorem extract_swapped : ∃ a s₁ r,
    openArchive JsonText.codec .obliging swappedHeaders "/z/x.tar".toList places
      = .ok (some a, s₁)
    ∧ Repacked swappedHeaders a ["a".toList, "b".toList] swapped
    ∧ msiArchiveExtract JsonText.codec .obliging (fun _ => .ok []) swappedHeaders
      (.ofText "/z/x.tar".toList) (.ofText "/z/t".toList) ⟨none, none⟩ ⟨none, none⟩ places = .ok r
    ∧ r.status = .num 0 ∧ r.session.nodes "/z/t/a".toList = some (.obj "y".toList) := by
  have hobj : places.objOpen .obliging (Text.rstrcpy "/z/x.tar".toList) false none
      = (.ok (), places.record (.objOpen "/z/x.tar".toList false none) true) := rfl
  obtain ⟨a, hopen, hitems⟩ : ∃ a : ReadArchive,
      openArchive JsonText.codec .obliging swappedHeaders "/z/x.tar".toList places
        = .ok (some a, places.record (.objOpen "/z/x.tar".toList false none) true)
      ∧ a.items = [objItem "a".toList, objItem "b".toList] :=
    ⟨_, openArchive_document twoObjs_valid rfl
      (show twoObjs.stringMember "collection".toList = some "/z/c".toList from rfl)
      (show swappedHeaders 0 = _ from rfl) hobj, rfl⟩
  obtain ⟨loop, hloop, hstatus, hnode⟩ : ∃ loop, extractLoop .obliging swappedHeaders none none
      "/z/t".toList 0 a.items 1 (.num 0)
      ((places.record (.objOpen "/z/x.tar".toList false none) true).collCreate .obliging
        "/z/t".toList false).2 = .ok loop ∧ loop.status = .num 0
      ∧ loop.session.nodes "/z/t/a".toList = some (.obj "y".toList) := by
    rw [hitems, extractLoop_cons (show swappedHeaders 1 = .ok _ from rfl) rfl]
    exact ⟨_, rfl, rfl, rfl⟩
  refine ⟨a, _, ⟨loop.status, some loop.status, loop.extracted,
    (loop.session.objClose .obliging a.path).2⟩, hopen,
    ⟨by rw [hitems]; rfl, by decide, by rw [hitems]; decide, ?_, by decide⟩, ?_, hstatus, ?_⟩
  · rintro (_ | _ | k) e he
    · exact congrArg HeaderResult.ok (Option.some.inj he)
    · exact congrArg HeaderResult.ok (Option.some.inj he)
    · exact nomatch he
  · rw [msiArchiveExtract_eq rfl rfl hopen]
    exact congrArg (Except.map _) hloop
  · rw [(Session.objClose_frame _ _ _).1]
    exact hnode

end Sample

/-- The archive of the two, extracted. -/
theorem entries_by_position_sample : ∃ r,
    msiArchiveExtract JsonText.codec .obliging (fun _ => .ok []) Sample.swappedHeaders
      (.ofText "/z/x.tar".toList) (.ofText "/z/t".toList) ⟨none, none⟩ ⟨none, none⟩
      Sample.places = .ok r
    ∧ (∀ (k : ℕ) (name : Text) (e : ReadEntry), ["a".toList, "b".toList][k]? = some name →
      Sample.swapped[k]? = some e →
      r.session.nodes (Text.join "/z/t".toList name) = some e.node)
    ∧ ((∀ e ∈ Sample.swapped, ∀ name, e.pathname = some name →
        r.session.nodes (Text.join "/z/t".toList name) = some e.node)
      ↔ ∀ (k : ℕ) (name : Text) (e : ReadEntry), ["a".toList, "b".toList][k]? = some name →
        Sample.swapped[k]? = some e → ∀ e' ∈ Sample.swapped, e'.pathname = some name →
        e'.node = e.node) := by
  obtain ⟨a, s₁, r, hopen, hrepacked, hrun, hstatus, -⟩ := Sample.extract_swapped
  exact ⟨r, hrun, entries_by_position Irods.obliging_honest rfl rfl rfl hopen hrepacked (by decide)
    hrun (by rw [hstatus]; rfl)⟩

namespace Sample

/-- The archive of the index of one item, with its entry. -/
def single : ℕ → HeaderResult
  | 0 => .ok indexEntry
  | 1 => .ok ⟨some "a".toList, true, 0, [], false⟩
  | _ => .eof

/-- The archive opens, and its extraction into a target with a long name returns 0 and has
changed nothing: the path of the item is cut off. -/
theorem extract_single_long {target : Text} (hlong : target.length = 1087) : ∃ a s₁ r,
    openArchive JsonText.codec .obliging single "/z/x.tar".toList (beforeLong target [])
      = .ok (some a, s₁)
    ∧ Repacked single a ["a".toList] [⟨some "a".toList, true, 0, [], false⟩]
    ∧ msiArchiveExtract JsonText.codec .obliging (fun _ => .ok []) single
      (.ofText "/z/x.tar".toList) (.ofText target) ⟨none, none⟩ ⟨none, none⟩
      (beforeLong target []) = .ok r
    ∧ r.status = .num 0 ∧ r.session.nodes = (beforeLong target []).nodes := by
  have hobj := objOpen_beforeLong hlong []
  obtain ⟨a, hopen, hitems⟩ : ∃ a : ReadArchive,
      openArchive JsonText.codec .obliging single "/z/x.tar".toList (beforeLong target [])
        = .ok (some a, (beforeLong target []).record (.objOpen "/z/x.tar".toList false none) true)
      ∧ a.items = [item] :=
    ⟨_, openArchive_document index_valid rfl
      (show index.stringMember "collection".toList = some "/z/c".toList from rfl)
      (show single 0 = _ from rfl) hobj, rfl⟩
  obtain ⟨r, hrun, hstatus, hnodes⟩ :=
    extract_cut hlong (if_pos rfl) hobj hopen hitems rfl rfl rfl rfl
  refine ⟨a, _, r, hopen, ⟨by rw [hitems]; rfl, List.nodup_singleton _, by rw [hitems]; decide,
    ?_, by decide⟩, hrun, hstatus, hnodes⟩
  rintro (_ | k) e he
  · exact congrArg HeaderResult.ok (Option.some.inj he)
  · exact nomatch he

end Sample

/-- **Two entries that have changed places** are extracted each under the name of the
other; and where all entries stand in the order of the items, a path that is cut off
leaves its item out. -/
theorem swapped_entries_swap_contents :
    (¬ ∀ (J : Jansson) (E : Irods) (rows : SpaceQuery) (headers : ℕ → HeaderResult)
      (archive target : Text) (a : ReadArchive) (names : List Text) (entries : List ReadEntry)
      (s s₁ : Session) (r : Extracted),
      J.Lawful → E.Honest → openArchive J E headers archive s = .ok (some a, s₁) →
      Repacked headers a names entries →
      (∀ name ∈ names, (Text.join target name).length < Text.maxNameLen) →
      msiArchiveExtract J E rows headers (.ofText archive) (.ofText target) ⟨none, none⟩
        ⟨none, none⟩ s = .ok r → r.status.isNeg = false →
      ∀ e ∈ entries, ∀ name, e.pathname = some name →
        r.session.nodes (Text.join target name) = some e.node)
    ∧ ¬ ∀ (J : Jansson) (E : Irods) (rows : SpaceQuery) (headers : ℕ → HeaderResult)
      (archive target : Text) (a : ReadArchive) (names : List Text) (entries : List ReadEntry)
      (s s₁ : Session) (r : Extracted),
      J.Lawful → E.Honest → openArchive J E headers archive s = .ok (some a, s₁) →
      Repacked headers a names entries → entries.map ReadEntry.pathname = names.map some →
      msiArchiveExtract J E rows headers (.ofText archive) (.ofText target) ⟨none, none⟩
        ⟨none, none⟩ s = .ok r → r.status.isNeg = false →
      ∀ e ∈ entries, ∀ name, e.pathname = some name →
        r.session.nodes (Text.join target name) = some e.node := by
  constructor
  · intro h
    obtain ⟨a, s₁, r, hopen, hrepacked, hrun, hstatus, hnode⟩ := Sample.extract_swapped
    have hbad := h _ _ _ _ _ _ a _ _ _ s₁ r JsonText.codec_lawful Irods.obliging_honest hopen
      hrepacked (by decide) hrun (by rw [hstatus]; rfl)
      ⟨some "a".toList, false, 1, ["x".toList], false⟩ (List.mem_cons_of_mem _ List.mem_cons_self)
      _ rfl
    have hother : some (Node.obj "y".toList) = some (.obj "x".toList) := hnode.symm.trans hbad
    exact absurd hother (by decide)
  · intro h
    obtain ⟨target, hlong⟩ : ∃ target : Text, target.length = 1087 :=
      ⟨Sample.longTarget, Sample.length_longTarget⟩
    obtain ⟨a, s₁, r, hopen, hrepacked, hrun, hstatus, hnodes⟩ := Sample.extract_single_long hlong
    have hbad := h _ _ _ _ _ _ a _ _ _ s₁ r JsonText.codec_lawful Irods.obliging_honest hopen
      hrepacked rfl hrun (by rw [hstatus]; rfl) _ (List.mem_singleton.mpr rfl) _ rfl
    rw [hnodes, Sample.beforeLong_join hlong] at hbad
    exact nomatch hbad
