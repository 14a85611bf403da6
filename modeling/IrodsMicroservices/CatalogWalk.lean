import IrodsMicroservices.GenQuery

/-!
# The walk over the catalog

`msiArchiveCreate` walks the collection it archives and issues one call to the
archive for each collection and data object it is shown. `dirColl` adds the
collections below a path and then, for each of them, what is inside; `dirDataObj`
adds the data objects of one collection. Every item comes with the list of its
attributes and its access control list, which four queries of their own collect.

All six query loops are the loop of `readPages`, with a body of their own, and
the four that collect a list are one definition (`collectList`) that differs in
the entry a row makes.

The collections of one level are added before anything inside them: `dirColl`
keeps a worklist and descends when its query is over. The catalog could show the
walk ever deeper collections, so the descent takes fuel, and returns `none`
without any left.
-/

namespace Catalog

/-- The JSON object of an attribute. -/
def attrEntry (J : Jansson) (r : Avu) : Option Json :=
  let json := (Json.object []).objectSetNew "name".toList (J.string r.name)
  let json := json.objectSetNew "value".toList (J.string r.value)
  some (json.objectSetNew "unit".toList (J.string r.unit))

/-- The text of an access control entry, put into a buffer of `MAX_NAME_LEN`
bytes; NULL where it is not UTF-8. -/
def aclEntry (J : Jansson) (r : AclRow) : Option Json :=
  J.string (Text.rstrcpy (r.user ++ "#".toList ++ r.zone ++ ":".toList ++ r.access))

/-- The list made of all rows: none without rows. -/
def listOf {α : Type} (entry : α → Option Json) (rows : List α) : Option Json :=
  if rows = [] then none else some (Json.array (rows.filterMap entry))

/-- The call for a data object, with the lists complete. -/
def dataObjCall (K : Catalog) (J : Jansson) (coll : Text) (r : DataRow) : ArchiveCall :=
  .addDataObj (coll ++ r.name) (BitVec.ofInt 64 r.size) r.created r.modified r.owner r.zone
    r.checksum (listOf (attrEntry J) (K.dataAttrs r.id)) (listOf (aclEntry J) (K.dataAcl r.id))

/-- The call for a collection, with the lists complete. -/
def collCall (K : Catalog) (J : Jansson) (coll : Text) (r : CollRow) : ArchiveCall :=
  .addColl (r.name.drop (coll.length + 1)) r.created r.modified r.owner r.zone
    (listOf (attrEntry J) (K.collAttrs r.id)) (listOf (aclEntry J) (K.collAcl r.id))

end Catalog

namespace GenQuery

open Catalog

variable (Q : GenQuery) (J : Jansson)

/-! ## The loops -/

/-- What the loops that collect a list do with a row. -/
def collectRow {α : Type} (entry : α → Option Json) (s : Walk × Option (List Json))
    (row : α) : Walk × Option (List Json) :=
  (s.1, some (Json.appendNew (s.2.getD []) (entry row)))

/-- The shared shape of `attrDataObj`, `attrColl`, `aclDataObj` and `aclColl`:
one entry is appended for each row, to an array made at the first of them, so
that without rows there is no list. -/
def collectList {α : Type} (entry : α → Option Json) (rows : List α) (w : Walk) :
    Option Json × Walk :=
  let r := readPages (Q.server.withLocal (Option (List Json))) (collectRow entry) rows
    (w, none)
  (r.2.map Json.array, r.1)

/-- `attrDataObj`. -/
def attrDataObj (id : ℤ) : Walk → Option Json × Walk :=
  Q.collectList (attrEntry J) (Q.dataAttrs id)

/-- `attrColl`. -/
def attrColl (id : ℤ) : Walk → Option Json × Walk :=
  Q.collectList (attrEntry J) (Q.collAttrs id)

/-- `aclDataObj`. -/
def aclDataObj (id : ℤ) : Walk → Option Json × Walk :=
  Q.collectList (aclEntry J) (Q.dataAcl id)

/-- `aclColl`. -/
def aclColl (id : ℤ) : Walk → Option Json × Walk :=
  Q.collectList (aclEntry J) (Q.collAcl id)

/-- What `dirDataObj` does with a row: the attributes and the access control
list are fetched, then the data object is added. -/
def dataObjRow (coll : Text) (w : Walk) (r : DataRow) : Walk :=
  let attrs := Q.attrDataObj J r.id w
  let acl := Q.aclDataObj J r.id attrs.2
  acl.2.emit (.addDataObj (coll ++ r.name) (BitVec.ofInt 64 r.size) r.created r.modified
    r.owner r.zone r.checksum attrs.1 acl.1)

/-- `dirDataObj`: the data objects of the collection `collId`, under names that
start with `coll`. -/
def dirDataObj (coll : Text) (collId : ℤ) (w : Walk) : Walk :=
  readPages Q.server (Q.dataObjRow J coll) (Q.dataObjs collId) w

/-- What `dirColl` does with a row: the collection is added, under its path
without the archived collection's and the slash, and put on the worklist. -/
def collRow (coll : Text) (s : Walk × List (Text × ℤ)) (r : CollRow) :
    Walk × List (Text × ℤ) :=
  let attrs := Q.attrColl J r.id s.1
  let acl := Q.aclColl J r.id attrs.2
  (acl.2.emit (.addColl (r.name.drop (coll.length + 1)) r.created r.modified r.owner r.zone
    attrs.1 acl.1), s.2 ++ [(r.name, r.id)])

/-- The query loop of `dirColl`, with the worklist it leaves. -/
def listColl (coll path : Text) (w : Walk) : Walk × List (Text × ℤ) :=
  readPages (Q.server.withLocal (List (Text × ℤ))) (Q.collRow J coll)
    (Q.subColls (Catalog.nameCond path)) (w, [])

/-- **`dirColl`**: the collections below `path`, then what is inside each. -/
def dirColl (coll : Text) : ℕ → Text → Walk → Option Walk
  | 0, _, _ => none
  | fuel + 1, path, w =>
    let r := Q.listColl J coll path w
    r.2.foldlM (fun w dir =>
      (dirColl coll fuel dir.1 w).map
        (Q.dirDataObj J (dir.1.drop (coll.length + 1) ++ "/".toList) dir.2)) r.1

/-- The walk of `msiArchiveCreate`: the collections with what they hold, then
the data objects of the archived collection itself. -/
def walk (fuel : ℕ) (coll : Text) (id : ℤ) (w : Walk) : Option Walk :=
  (Q.dirColl J coll fuel coll w).map (Q.dirDataObj J [] id)

/-! ## What the loops do

Each loop leaves the requests counted no lower, and where no request has failed
it has processed all rows of its statement. -/

section Loops

variable {Q J}

/-- Collecting a list issues no call and only adds requests. -/
theorem collectList_frame {α : Type} (entry : α → Option Json) (rows : List α) (w : Walk) :
    (Q.collectList entry rows w).2.calls = w.calls
      ∧ w.requests ≤ (Q.collectList entry rows w).2.requests := by
  obtain ⟨_, -, h⟩ := readPages_prefix (Q.server.withLocal _) (collectRow entry)
    (fun _ s => s.1.calls = w.calls ∧ w.requests ≤ s.1.requests) rows (w, none)
    (fun _ _ _ _ h => ⟨h.1, h.2.trans (Nat.le_succ _)⟩) (fun _ _ _ _ h => h)
    ⟨rfl, le_rfl⟩
  exact h

/-- **A list that is collected without a failure has every row's entry.** -/
theorem collectList_fst {α : Type} (entry : α → Option Json) (rows : List α) (w : Walk)
    (h : Q.Fine (Q.collectList entry rows w).2) :
    (Q.collectList entry rows w).1 = listOf entry rows := by
  have hrule := readPages_complete (Q.server.withLocal (Option (List Json)))
    (collectRow entry)
    (fun p s => s.2 = if p = [] then none else some (p.filterMap entry))
    (Q.guards_fine.withLocal _) (fun _ _ h => h) (fun _ _ _ _ h => h)
    (fun p a s _ _ h => ?_) (by rfl) h
  · unfold collectList listOf
    dsimp only
    rw [hrule]
    split <;> rfl
  · show some (Json.appendNew (s.2.getD []) (entry a)) = _
    rw [h, if_neg (List.append_ne_nil_of_right_ne_nil _ (List.cons_ne_nil _ _)),
      List.filterMap_append, Json.appendNew]
    refine congrArg some (congrArg₂ (· ++ ·) ?_ ?_)
    · split
      · rename_i hp
        rw [hp]
        rfl
      · rfl
    · cases he : entry a <;> simp [he]

/-- A data object's row only adds requests. -/
theorem dataObjRow_requests (coll : Text) (w : Walk) (r : DataRow) :
    w.requests ≤ (Q.dataObjRow J coll w r).requests :=
  (collectList_frame _ _ _).2.trans (collectList_frame _ _ _).2

/-- A data object's row issues one call, with complete lists where no request
has failed. -/
theorem dataObjRow_calls (coll : Text) (w : Walk) (r : DataRow)
    (h : Q.Fine (Q.dataObjRow J coll w r)) :
    (Q.dataObjRow J coll w r).calls = w.calls ++ [Q.dataObjCall J coll r] := by
  have hacl : Q.Fine (Q.aclDataObj J r.id (Q.attrDataObj J r.id w).2).2 := h
  have hattr : Q.Fine (Q.attrDataObj J r.id w).2 :=
    fine_of_le (collectList_frame _ _ _).2 hacl
  have hcalls : (Q.aclDataObj J r.id (Q.attrDataObj J r.id w).2).2.calls = w.calls :=
    (collectList_frame _ _ _).1.trans (collectList_frame _ _ _).1
  unfold dataObjRow
  rw [Walk.calls_emit, hcalls]
  refine congrArg (fun c => w.calls ++ [c]) ?_
  rw [show (Q.attrDataObj J r.id w).1 = _ from collectList_fst _ _ _ hattr,
    show (Q.aclDataObj J r.id _).1 = _ from collectList_fst _ _ _ hacl]
  rfl

/-- `dirDataObj` only adds requests. -/
theorem dirDataObj_requests (coll : Text) (collId : ℤ) (w : Walk) :
    w.requests ≤ (Q.dirDataObj J coll collId w).requests := by
  obtain ⟨_, -, h⟩ := readPages_prefix Q.server (Q.dataObjRow J coll)
    (fun _ s => w.requests ≤ s.requests) (Q.dataObjs collId) w
    (fun _ _ _ _ h => h.trans (Nat.le_succ _))
    (fun _ r s _ h => h.trans (dataObjRow_requests coll s r)) le_rfl
  exact h

/-- **`dirDataObj` adds every row of its collection**, in the order of the rows,
where no request has failed. -/
theorem dirDataObj_calls (coll : Text) (collId : ℤ) (w : Walk)
    (h : Q.Fine (Q.dirDataObj J coll collId w)) :
    (Q.dirDataObj J coll collId w).calls
      = w.calls ++ (Q.dataObjs collId).map (Q.dataObjCall J coll) := by
  refine readPages_complete Q.server (Q.dataObjRow J coll)
    (fun p s => s.calls = w.calls ++ p.map (Q.dataObjCall J coll)) Q.guards_fine
    (fun s r => fine_of_le (dataObjRow_requests coll s r)) (fun _ _ _ _ h => h)
    (fun p r s _ hf h => ?_) (by simp) h
  rw [dataObjRow_calls coll s r hf, h, List.map_append, List.append_assoc]
  rfl

/-- A collection's row only adds requests. -/
theorem collRow_requests (coll : Text) (s : Walk × List (Text × ℤ)) (r : CollRow) :
    s.1.requests ≤ (Q.collRow J coll s r).1.requests :=
  (collectList_frame _ _ _).2.trans (collectList_frame _ _ _).2

/-- A collection's row issues one call, with complete lists where no request has
failed. -/
theorem collRow_calls (coll : Text) (s : Walk × List (Text × ℤ)) (r : CollRow)
    (h : Q.Fine (Q.collRow J coll s r).1) :
    (Q.collRow J coll s r).1.calls = s.1.calls ++ [Q.collCall J coll r] := by
  have hacl : Q.Fine (Q.aclColl J r.id (Q.attrColl J r.id s.1).2).2 := h
  have hattr : Q.Fine (Q.attrColl J r.id s.1).2 :=
    fine_of_le (collectList_frame _ _ _).2 hacl
  have hcalls : (Q.aclColl J r.id (Q.attrColl J r.id s.1).2).2.calls = s.1.calls :=
    (collectList_frame _ _ _).1.trans (collectList_frame _ _ _).1
  unfold collRow
  rw [Walk.calls_emit, hcalls]
  refine congrArg (fun c => s.1.calls ++ [c]) ?_
  rw [show (Q.attrColl J r.id s.1).1 = _ from collectList_fst _ _ _ hattr,
    show (Q.aclColl J r.id _).1 = _ from collectList_fst _ _ _ hacl]
  rfl

/-- The worklist of a row. -/
def dirOf (r : CollRow) : Text × ℤ := (r.name, r.id)

/-- **Whatever the server does, the worklist is a prefix of the collections
below the path**, and only requests are added. -/
theorem prefix_listColl (coll path : Text) (w : Walk) :
    w.requests ≤ (Q.listColl J coll path w).1.requests
      ∧ ∃ p, p <+: Q.subColls (Catalog.nameCond path)
          ∧ (Q.listColl J coll path w).2 = p.map dirOf := by
  obtain ⟨p, hp, h⟩ := readPages_prefix (Q.server.withLocal _) (Q.collRow J coll)
    (fun p s => w.requests ≤ s.1.requests ∧ s.2 = p.map dirOf)
    (Q.subColls (Catalog.nameCond path)) (w, []) (fun _ _ _ _ h => ⟨h.1.trans (Nat.le_succ _), h.2⟩)
    (fun p r s _ h => ⟨h.1.trans (collRow_requests coll s r), by
      rw [List.map_append, ← h.2]
      rfl⟩)
    ⟨le_rfl, rfl⟩
  exact ⟨h.1, p, hp, h.2⟩

/-- **Where no request has failed, every collection below the path is added and
on the worklist.** -/
theorem listColl_complete (coll path : Text) (w : Walk)
    (h : Q.Fine (Q.listColl J coll path w).1) :
    (Q.listColl J coll path w).1.calls
        = w.calls ++ (Q.subColls (Catalog.nameCond path)).map (Q.collCall J coll)
      ∧ (Q.listColl J coll path w).2 = (Q.subColls (Catalog.nameCond path)).map dirOf := by
  refine readPages_complete (Q.server.withLocal _) (Q.collRow J coll)
    (fun p s => s.1.calls = w.calls ++ p.map (Q.collCall J coll) ∧ s.2 = p.map dirOf)
    (Q.guards_fine.withLocal _) (fun s r => fine_of_le (collRow_requests coll s r))
    (fun _ _ _ _ h => h) (fun p r s _ hf h => ⟨?_, ?_⟩) ⟨by simp, rfl⟩ h
  · rw [collRow_calls coll s r hf, h.1, List.map_append, List.append_assoc]
    rfl
  · rw [List.map_append, ← h.2]
    rfl

end Loops

end GenQuery
