import IrodsMicroservices.Jansson

/-!
# The index of an archive under construction

While an archive is being created its object collects one index item for every
call of `addDataObj` and `addColl`, in the order of the calls. An item is a JSON
object; a data object's item also adds the object's size, rounded up to whole
blocks, to the size the index will announce. The one object that is left out is
the archive itself, recognised by its path.

The class serves archives being created and archives being read; its flag
`creating` tells which. Here each has a structure of its own, so that an archive
opened for reading cannot be constructed. `WriteArchive` is the one with the
flag set.
-/

/-- An archive being created. -/
structure WriteArchive where
  /-- The path of the archive. -/
  path : Text
  /-- The collection being archived. -/
  origin : Text
  /-- The index items. -/
  list : List Json
  /-- The size in blocks of the items, a `size_t`. -/
  dataSize : BitVec 64

namespace WriteArchive

/-- `A_BLOCKSIZE`. -/
def aBlockSize : BitVec 64 := 8192#64

/-- A size rounded up to whole blocks, in the 64-bit arithmetic of the code. -/
def blockRounded (size : BitVec 64) : BitVec 64 :=
  (size + aBlockSize - 1#64) &&& ~~~(aBlockSize - 1#64)

/-- The members `attributes` and `ACL`, set where there is a list. -/
def setLists (item : Json) (attributes acl : Option Json) : Json :=
  (item.objectSetNew "attributes".toList attributes).objectSetNew "ACL".toList acl

/-- The index item of a data object. -/
def dataObjItem (J : Jansson) (name : Text) (size : BitVec 64) (created modified : ℤ)
    (owner zone checksum : Text) (attributes acl : Option Json) : Json :=
  let json := (Json.object []).objectSetNew "name".toList (J.string name)
  let json := json.objectSetNew "type".toList (J.string "dataObj".toList)
  let json := json.objectSetNew "size".toList (some (Json.integer size.toInt))
  let json := json.objectSetNew "created".toList (some (Json.integer created))
  let json := json.objectSetNew "modified".toList (some (Json.integer modified))
  let json := json.objectSetNew "owner".toList (J.string (owner ++ "#".toList ++ zone))
  let json := if checksum.length ≠ 0
    then json.objectSetNew "checksum".toList (J.string checksum) else json
  setLists json attributes acl

/-- The index item of a collection. -/
def collItem (J : Jansson) (name : Text) (created modified : ℤ) (owner zone : Text)
    (attributes acl : Option Json) : Json :=
  let json := (Json.object []).objectSetNew "name".toList (J.string name)
  let json := json.objectSetNew "type".toList (J.string "coll".toList)
  let json := json.objectSetNew "created".toList (some (Json.integer created))
  let json := json.objectSetNew "modified".toList (some (Json.integer modified))
  let json := json.objectSetNew "owner".toList (J.string (owner ++ "#".toList ++ zone))
  setLists json attributes acl

/-- `addDataObj`: nothing is added for the archive itself. -/
def addDataObj (J : Jansson) (a : WriteArchive) (name : Text) (size : BitVec 64)
    (created modified : ℤ) (owner zone checksum : Text)
    (attributes acl : Option Json) : WriteArchive :=
  -- an archive made inside its own collection is not an entry of itself
  if a.path ≠ Text.join a.origin name then
    { a with
      list := Json.appendNew a.list
        (some (dataObjItem J name size created modified owner zone checksum attributes acl))
      dataSize := a.dataSize + blockRounded size }
  else a

/-- `addColl`. -/
def addColl (J : Jansson) (a : WriteArchive) (name : Text) (created modified : ℤ)
    (owner zone : Text) (attributes acl : Option Json) : WriteArchive :=
  { a with
    list := Json.appendNew a.list
      (some (collItem J name created modified owner zone attributes acl)) }

end WriteArchive

/-! ## The calls -/

/-- A call of `addColl` or `addDataObj`, with its arguments. -/
inductive ArchiveCall
  | addColl (name : Text) (created modified : ℤ) (owner zone : Text)
      (attributes acl : Option Json)
  | addDataObj (name : Text) (size : BitVec 64) (created modified : ℤ)
      (owner zone checksum : Text) (attributes acl : Option Json)

namespace ArchiveCall

/-- The name the call gives the item, relative to the collection archived. -/
def name : ArchiveCall → Text
  | addColl name .. => name
  | addDataObj name .. => name

/-- Whether the call adds a collection. -/
def isColl : ArchiveCall → Bool
  | addColl .. => true
  | addDataObj .. => false

/-- The type of the item, as it stands in the index. -/
def typeText : ArchiveCall → Text
  | addColl .. => "coll".toList
  | addDataObj .. => "dataObj".toList

/-- The attributes the call gives the item. -/
def attributes : ArchiveCall → Option Json
  | addColl _ _ _ _ _ attributes _ => attributes
  | addDataObj _ _ _ _ _ _ _ attributes _ => attributes

/-- The access control list the call gives the item. -/
def acl : ArchiveCall → Option Json
  | addColl _ _ _ _ _ _ acl => acl
  | addDataObj _ _ _ _ _ _ _ _ acl => acl

/-- The call carried out on an archive. -/
def apply (J : Jansson) (a : WriteArchive) : ArchiveCall → WriteArchive
  | addColl name created modified owner zone attributes acl =>
    a.addColl J name created modified owner zone attributes acl
  | addDataObj name size created modified owner zone checksum attributes acl =>
    a.addDataObj J name size created modified owner zone checksum attributes acl

/-- The index item the call makes. -/
def item (J : Jansson) : ArchiveCall → Json
  | addColl name created modified owner zone attributes acl =>
    WriteArchive.collItem J name created modified owner zone attributes acl
  | addDataObj name size created modified owner zone checksum attributes acl =>
    WriteArchive.dataObjItem J name size created modified owner zone checksum attributes acl

/-- The blocks the call adds to the size of the index. -/
def blocks : ArchiveCall → BitVec 64
  | addColl .. => 0#64
  | addDataObj _ size .. => WriteArchive.blockRounded size

/-- Whether the call is for the archive itself. -/
def isSelf (path origin : Text) (c : ArchiveCall) : Bool :=
  !c.isColl && path == Text.join origin c.name

end ArchiveCall

/-! ## The members of an item -/

namespace ArchiveCall

/-- What is set only where a condition holds leaves the other members alone. -/
theorem objectGet_ite_objectSetNew {p : Prop} [Decidable p] {k key : Text} (h : k ≠ key)
    (o : Json) (v : Option Json) :
    (if p then o.objectSetNew key v else o).objectGet k = o.objectGet k := by
  split
  · exact Json.objectGet_objectSetNew_of_ne h o v
  · rfl

/-- The member `name` of an item. -/
theorem item_name (J : Jansson) (c : ArchiveCall) :
    (c.item J).objectGet "name".toList = J.string c.name := by
  have hname : ((Json.object []).objectSetNew "name".toList (J.string c.name)).objectGet
      "name".toList = J.string c.name := Json.objectGet_objectSetNew rfl rfl _
  cases c <;>
    (unfold item
     simp (disch := decide) only [WriteArchive.collItem, WriteArchive.dataObjItem,
       WriteArchive.setLists, objectGet_ite_objectSetNew, Json.objectGet_objectSetNew_of_ne]
     exact hname)

/-- The member `type` of an item. -/
theorem item_type (J : Jansson) (c : ArchiveCall) :
    (c.item J).objectGet "type".toList
      = J.string c.typeText := by
  have htype : ∀ n v : Option Json, (((Json.object []).objectSetNew "name".toList n).objectSetNew
      "type".toList v).objectGet "type".toList = v := fun n v =>
    Json.objectGet_objectSetNew (by rw [Json.isObject_objectSetNew]; rfl)
      ((Json.objectGet_objectSetNew_of_ne (by decide) _ n).trans rfl) v
  cases c <;>
    (unfold item
     simp (disch := decide) only [WriteArchive.collItem, WriteArchive.dataObjItem,
       WriteArchive.setLists, objectGet_ite_objectSetNew, Json.objectGet_objectSetNew_of_ne]
     exact htype _ _)

/-- The members `attributes` and `ACL` of an item. -/
theorem item_lists (J : Jansson) (c : ArchiveCall) :
    (c.item J).objectGet "attributes".toList = c.attributes
      ∧ (c.item J).objectGet "ACL".toList = c.acl := by
  have hlists : ∀ (o : Json) (attributes acl : Option Json), o.isObject = true →
      o.objectGet "attributes".toList = none → o.objectGet "ACL".toList = none →
      (WriteArchive.setLists o attributes acl).objectGet "attributes".toList = attributes
        ∧ (WriteArchive.setLists o attributes acl).objectGet "ACL".toList = acl := by
    intro o attributes acl ho hattributes hacl
    unfold WriteArchive.setLists
    refine ⟨?_, Json.objectGet_objectSetNew (by rw [Json.isObject_objectSetNew, ho])
      (by rw [Json.objectGet_objectSetNew_of_ne (by decide), hacl]) acl⟩
    rw [Json.objectGet_objectSetNew_of_ne (by decide), Json.objectGet_objectSetNew ho hattributes]
  cases c with
  | addColl =>
    refine hlists _ _ _ (by simp only [Json.isObject_objectSetNew]; rfl) ?_ ?_ <;>
      (simp (disch := decide) only [Json.objectGet_objectSetNew_of_ne]; rfl)
  | addDataObj =>
    refine hlists _ _ _ ?_ ?_ ?_
    · split <;> (simp only [Json.isObject_objectSetNew]; rfl)
    all_goals
      (simp (disch := decide) only [objectGet_ite_objectSetNew, Json.objectGet_objectSetNew_of_ne]
       rfl)

/-- The type of an item can be read. -/
theorem item_typeText {J : Jansson} (hJ : J.Lawful) (c : ArchiveCall) :
    (c.item J).stringMember "type".toList = some c.typeText := by
  have hutf8 : J.utf8 c.typeText = true := hJ.utf8_ascii _ (by cases c <;> rfl)
  unfold Json.stringMember
  rw [item_type, Jansson.string_of_utf8 hutf8]
  rfl

/-- The item is for a data object. -/
def isDataObjItem (item : Json) : Bool :=
  item.stringMember "type".toList == some "dataObj".toList

/-- The type tells the items of data objects from those of collections. -/
theorem isDataObjItem_item {J : Jansson} (hJ : J.Lawful) (c : ArchiveCall) :
    isDataObjItem (c.item J) = !c.isColl := by
  unfold isDataObjItem
  rw [item_typeText hJ]
  cases c <;> rfl

end ArchiveCall

namespace WriteArchive

/-- An archive as it is created. -/
def create (path origin : Text) : WriteArchive := ⟨path, origin, [], 0#64⟩

/-- The calls carried out one after the other. -/
def run (J : Jansson) (a : WriteArchive) (calls : List ArchiveCall) : WriteArchive :=
  calls.foldl (ArchiveCall.apply J) a

/-- **What one call does**: the item is appended and its blocks are counted,
unless the call is for the archive itself. -/
theorem apply_eq (J : Jansson) (a : WriteArchive) (c : ArchiveCall) :
    c.apply J a = if c.isSelf a.path a.origin then a else
      { a with
        list := a.list ++ [c.item J]
        dataSize := a.dataSize + c.blocks } := by
  cases c with
  | addColl name created modified owner zone attributes acl =>
    show _ = { a with
      list := a.list ++ [collItem J name created modified owner zone attributes acl]
      dataSize := a.dataSize + 0#64 }
    rw [BitVec.add_zero]
    rfl
  | addDataObj name size created modified owner zone checksum attributes acl =>
    show a.addDataObj J name size created modified owner zone checksum attributes acl = _
    unfold addDataObj
    by_cases h : a.path = Text.join a.origin name
    · have hself : (ArchiveCall.addDataObj name size created modified owner zone
          checksum attributes acl).isSelf a.path a.origin = true := by
        simp [ArchiveCall.isSelf, ArchiveCall.isColl, ArchiveCall.name, h]
      rw [if_neg (not_not_intro h), if_pos hself]
    · have hself : (ArchiveCall.addDataObj name size created modified owner zone
          checksum attributes acl).isSelf a.path a.origin = false := by
        simp [ArchiveCall.isSelf, ArchiveCall.isColl, ArchiveCall.name, h]
      rw [if_pos h, hself]
      rfl

/-- A call leaves the paths of the archive alone. -/
@[simp] theorem apply_path (J : Jansson) (a : WriteArchive) (c : ArchiveCall) :
    (c.apply J a).path = a.path ∧ (c.apply J a).origin = a.origin := by
  rw [apply_eq]
  split <;> exact ⟨rfl, rfl⟩

/-- **What a sequence of calls does**: the index lists the items of the calls
that are not for the archive itself, in their order, and its size is the sum of
their blocks. -/
theorem run_eq (J : Jansson) (a : WriteArchive) (calls : List ArchiveCall) :
    a.run J calls =
      { a with
        list := a.list
          ++ (calls.filter (fun c => !c.isSelf a.path a.origin)).map (ArchiveCall.item J)
        dataSize := a.dataSize
          + ((calls.filter (fun c => !c.isSelf a.path a.origin)).map
              ArchiveCall.blocks).sum } := by
  induction calls generalizing a with
  | nil => simp [run]
  | cons c calls ih =>
    have hp := apply_path J a c
    have hrun : a.run J (c :: calls) = (c.apply J a).run J calls := rfl
    rw [hrun, ih, hp.1, hp.2, apply_eq]
    by_cases h : c.isSelf a.path a.origin = true
    · simp [h]
    · rw [Bool.not_eq_true] at h
      simp [h, BitVec.add_assoc]

end WriteArchive
