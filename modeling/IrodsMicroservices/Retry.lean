import IrodsMicroservices.KeyedEdits
import IrodsMicroservices.NamespaceTree
import IrodsMicroservices.PartialExtraction

/-!
# Extracting again

An extraction that has failed may simply be run again. What it has left so far is laid
out once more, a data object that is there in part is truncated and written anew, and
the attributes of an item are edited once more from the first one on, which makes up for
those that have been set or added already (`KeyedEdit.applyAll_applyAll`).

So any number of attempts, ended in any way on any servers, followed by an extraction
that is complete leave the same as that extraction alone (`retry_extracts`).
-/

open Session

/-! ## The attributes of an item -/

section Edits

variable {E : Irods} {resource : Option Text}

/-- What a call that sets or adds an attribute asks for: nothing where a name or a value
is NULL. -/
def callEdits (op : AvuOp) (name value unit : Option Text) : List (KeyedEdit Avu) :=
  match name, value with
  | some name, some value =>
    match op with
    | .set => [.set ⟨name, value, unit.getD []⟩]
    | .add => [.add ⟨name, value, unit.getD []⟩]
  | _, _ => []

/-- What is asked for by the loop of `attributes`. -/
def avuEdits : Option Text → List Json → List (KeyedEdit Avu)
  | _, [] => []
  | prev, json :: rest =>
    callEdits (if prev = none ∨ json.stringMember "name".toList ≠ prev then .set else .add)
      (json.stringMember "name".toList) (json.stringMember "value".toList)
      (json.stringMember "unit".toList) ++ avuEdits (json.stringMember "name".toList) rest

/-- What is asked for when the metadata of an item is set. -/
def itemEdits (json : Json) : List (KeyedEdit Avu) :=
  match json.objectGet "attributes".toList with
  | none => []
  | some list => avuEdits none list.elems

/-- **Some of the edits of a list have been made at a path**, and all of them where the
server refuses nothing. -/
def Edited (E : Irods) (file : Text) (edits : List (KeyedEdit Avu)) (s s' : Session) : Prop :=
  ∃ part, part.Sublist edits
    ∧ s'.avus = Function.update s.avus file (KeyedEdit.applyAll Avu.name part (s.avus file))
    ∧ ((∀ n, E.deny n = none) → part = edits)

theorem Edited.of_avus {file : Text} {s s' : Session} (h : s'.avus = s.avus) :
    Edited E file [] s s' := by
  refine ⟨[], List.Sublist.refl [], ?_, fun _ => rfl⟩
  rw [h, KeyedEdit.applyAll_nil, Function.update_eq_self]

theorem Edited.trans {file : Text} {edits edits' : List (KeyedEdit Avu)} {s t u : Session}
    (h : Edited E file edits s t) (h' : Edited E file edits' t u) :
    Edited E file (edits ++ edits') s u := by
  obtain ⟨part, hpart, havus, hall⟩ := h
  obtain ⟨part', hpart', havus', hall'⟩ := h'
  refine ⟨part ++ part', hpart.append hpart', ?_, fun hE => by rw [hall hE, hall' hE]⟩
  rw [havus', havus, Function.update_idem, Function.update_self]
  show _ = Function.update s.avus file ((part ++ part').foldl _ (s.avus file))
  rw [List.foldl_append]
  rfl

theorem edited_modAvuMetadata (op : AvuOp) (isColl : Bool) (file : Text)
    (name value unit : Option Text) (s : Session) :
    Edited E file (callEdits op name value unit) s
      (s.modAvuMetadata E op isColl file name value unit).2 := by
  cases hcall : s.modAvuMetadata E op isColl file name value unit with
  | mk x t =>
    cases x with
    | error f =>
      refine ⟨[], List.nil_sublist _, ?_, fun hE => ?_⟩
      · rw [request_error hcall]
        exact (Function.update_eq_self file s.avus).symm
      · rcases request_error_cases hcall with hdeny | hanswer
        · exact absurd hdeny (by simp [hE])
        · cases name with
          | none => rfl
          | some name =>
            cases value with
            | none => rfl
            | some value => cases hanswer
    | ok =>
      obtain ⟨u, hu, rfl⟩ := request_ok hcall
      cases name with
      | none => cases hu
      | some name =>
        cases value with
        | none => cases hu
        | some value =>
          obtain ⟨-, rfl⟩ := Prod.mk.inj (Except.ok.inj hu)
          refine ⟨_, List.Sublist.refl _, ?_, fun _ => rfl⟩
          show Function.update s.avus file _ = Function.update s.avus file _
          cases op with
          | set => rfl
          | add => rfl

theorem edited_attributesLoop {file : Text} {isColl : Bool} (list : List Json) :
    ∀ {prev : Option Text} {s s' : Session}, attributesLoop E file isColl prev list s = .ok s' →
      Edited E file (avuEdits prev list) s s' := by
  induction list with
  | nil =>
    intro prev s s' h
    obtain rfl := Except.ok.inj h
    exact .of_avus rfl
  | cons json list ih =>
    intro prev s s' h
    unfold attributesLoop at h
    dsimp only at h
    split at h
    · cases h
    · exact (edited_modAvuMetadata ..).trans (ih h)

/-- Requests that answer with the attributes as they are. -/
theorem avus_request {α : Type} {r : Request} {answer : Except Failure (α × Session)} {s : Session}
    (h : ∀ a t, answer = .ok (a, t) → t.avus = s.avus) :
    (s.request E r answer).2.avus = s.avus := by
  cases hx : s.request E r answer with
  | mk x t =>
    cases x with
    | ok a =>
      obtain ⟨u, hu, rfl⟩ := request_ok hx
      exact h a u hu
    | error f =>
      rw [request_error hx]
      rfl

theorem avus_objWrite (path : Text) (buf : Bytes) (s : Session) :
    (s.objWrite E path buf).2.avus = s.avus := by
  refine avus_request (fun a t h => ?_)
  split at h
  · obtain ⟨-, rfl⟩ := Prod.mk.inj (Except.ok.inj h)
    rfl
  · cases h

theorem avus_collCreate (path : Text) (s : Session) :
    (s.collCreate E path false).2.avus = s.avus := by
  refine avus_request (fun a t h => ?_)
  split at h
  · cases h
  · cases h
  · rw [if_neg Bool.false_ne_true] at h
    split at h
    · obtain ⟨-, rfl⟩ := Prod.mk.inj (Except.ok.inj h)
      rfl
    · cases h

theorem avus_writeBlocks {path : Text} {fails : Bool} (blocks : List Bytes) :
    ∀ s : Session, (writeBlocks E path fails blocks s).2.avus = s.avus := by
  have hclose : ∀ s : Session, (s.objClose E path).2.avus = s.avus :=
    fun s => (objClose_frame s E path).2
  induction blocks with
  | nil =>
    intro s
    unfold writeBlocks
    split
    · exact hclose s
    · exact hclose s
  | cons block blocks ih =>
    intro s
    cases block with
    | nil => exact hclose s
    | cons b buf =>
      unfold writeBlocks
      have havus := avus_objWrite (E := E) path (b :: buf) s
      cases hwrite : s.objWrite E path (b :: buf) with
      | mk x t =>
        rw [hwrite] at havus
        cases x with
        | error f => exact (hclose t).trans havus
        | ok n => exact (ih t).trans havus

/-- The data of an item are no matter of its attributes. -/
theorem avus_extractItem (resource : Option Text) (e : ReadEntry) (file : Text) (s : Session) :
    (extractItem E resource e file s).2.avus = s.avus := by
  unfold extractItem
  split
  · have havus := avus_collCreate (E := E) (Text.rstrcpy file) s
    split
    · rename_i f t h
      rw [h] at havus
      split <;> exact havus
    · exact havus
  · cases hcreat : creat E file resource s with
    | mk x t =>
      obtain ⟨havus, -⟩ := creat_spec hcreat
      cases x with
      | error f => exact havus
      | ok => exact (avus_writeBlocks e.blocks t).trans havus

theorem edited_setMetadata {file : Text} {json : Json} {s s' : Session}
    (h : setMetadata E file json s = .ok s') : Edited E file (itemEdits json) s s' := by
  have hmodify : ∀ isColl : Bool, Edited E file []
      s (if isColl = true then s else s.modify E file json) := by
    intro isColl
    refine .of_avus ?_
    cases isColl with
    | true => rfl
    | false =>
      refine avus_request (fun a t h => ?_)
      obtain ⟨-, rfl⟩ := Prod.mk.inj (Except.ok.inj h)
      rfl
  unfold setMetadata at h
  unfold itemEdits
  split at h
  · cases h
  · rename_i type _
    dsimp only at h
    cases hlist : json.objectGet "attributes".toList with
    | none =>
      rw [hlist] at h
      obtain rfl := Except.ok.inj h
      exact hmodify _
    | some list =>
      rw [hlist] at h
      exact (hmodify _).trans (edited_attributesLoop _ h)

/-- **An item that is extracted has its attributes edited**, all of them where nothing is
refused and no error is returned. -/
theorem edited_extractEntry {file : Text} {e : ReadEntry} {json : Json} {s s' : Session}
    {x : Except Failure Unit} (h : extractEntry E resource file e json s = .ok (x, s')) :
    (∃ part, part.Sublist (itemEdits json)
        ∧ s'.avus = Function.update s.avus file (KeyedEdit.applyAll Avu.name part (s.avus file)))
      ∧ (x = .ok () → Edited E file (itemEdits json) s s') := by
  have havus := avus_extractItem (E := E) resource e file s
  obtain ⟨f, hitem, rfl⟩ | ⟨t, hitem, hset, rfl⟩ := extractEntry_cases h
  · rw [hitem] at havus
    refine ⟨⟨[], List.nil_sublist _, ?_⟩, fun hx => (by cases hx)⟩
    rw [havus, KeyedEdit.applyAll_nil, Function.update_eq_self]
  · rw [hitem] at havus
    have hedited : Edited E file (itemEdits json) s s' :=
      (Edited.of_avus havus).trans (edited_setMetadata hset)
    obtain ⟨part, hpart, hupdate, -⟩ := id hedited
    exact ⟨⟨part, hpart, hupdate⟩, fun _ => hedited⟩

end Edits

/-! ## What attempts leave -/

/-- A node of the kind an entry leaves. -/
def ReadEntry.KindOf (e : ReadEntry) (node : Option Node) : Prop :=
  if e.isDir then node = some .coll else ∃ data, node = some (.obj data)

section Item

variable {E : Irods} {resource : Option Text}

/-- Writing an object leaves an object, whatever the server stores. -/
theorem writeBlocks_obj {path : Text} {fails : Bool} {blocks : List Bytes} :
    ∀ {s : Session}, (∃ data, s.nodes path = some (.obj data)) →
      ∃ data, (writeBlocks E path fails blocks s).2.nodes path = some (.obj data) := by
  have hclose : ∀ {s : Session}, (∃ data, s.nodes path = some (.obj data)) →
      ∃ data, (s.objClose E path).2.nodes path = some (.obj data) := by
    intro s hs
    rwa [(objClose_frame s E path).1]
  induction blocks with
  | nil =>
    intro s hs
    unfold writeBlocks
    split
    · exact hclose hs
    · exact hclose hs
  | cons block blocks ih =>
    intro s hs
    cases block with
    | nil => exact hclose hs
    | cons b buf =>
      unfold writeBlocks
      cases hwrite : s.objWrite E path (b :: buf) with
      | mk x t =>
        cases x with
        | error f =>
          refine hclose ?_
          rwa [request_error hwrite]
        | ok n =>
          refine ih ?_
          obtain ⟨data, hdata⟩ := hs
          obtain ⟨u, hu, rfl⟩ := request_ok hwrite
          rw [hdata] at hu
          obtain ⟨-, rfl⟩ := Prod.mk.inj (Except.ok.inj hu)
          exact ⟨_, nodes_put_self ..⟩

/-- **What an item changes at its path is of its own kind**, before and after. -/
theorem extractItem_kind (resource : Option Text) {e : ReadEntry} {file : Text}
    (hfits : file.length < Text.maxNameLen) (s : Session) :
    (extractItem E resource e file s).2.nodes file = s.nodes file
      ∨ e.KindOf ((extractItem E resource e file s).2.nodes file)
        ∧ (s.nodes file = none ∨ e.KindOf (s.nodes file)) := by
  unfold extractItem ReadEntry.KindOf
  rw [Text.rstrcpy_of_fits hfits]
  cases hdir : e.isDir with
  | true =>
    rw [if_pos rfl, if_pos rfl, if_pos rfl]
    cases hcreate : s.collCreate E file false with
    | mk y t =>
      cases y with
      | ok =>
        obtain ⟨hnone, -, hnodes⟩ := collCreate_ok hcreate
        refine .inr ⟨?_, .inl hnone⟩
        show t.nodes file = _
        rw [hnodes, Function.update_self]
      | error f =>
        have hkept : t.nodes file = s.nodes file := by
          rw [request_error hcreate]
          rfl
        refine .inl ?_
        dsimp only
        split <;> exact hkept
  | false =>
    rw [if_neg Bool.false_ne_true, if_neg Bool.false_ne_true, if_neg Bool.false_ne_true]
    cases hcreat : creat E file resource s with
    | mk y t =>
      obtain ⟨-, hfailed, hok⟩ := creat_spec hcreat
      cases y with
      | error f => exact .inl (congrFun (hfailed f rfl) file)
      | ok =>
        obtain ⟨hplace, hnodes⟩ := hok rfl
        rw [Text.rstrcpy_of_fits hfits] at hplace hnodes
        have ht : t.nodes file = some (.obj []) := by rw [hnodes, Function.update_self]
        exact .inr ⟨writeBlocks_obj ⟨[], ht⟩, hplace.symm.imp And.left id⟩

theorem extractEntry_kind {e : ReadEntry} {file : Text} (hfits : file.length < Text.maxNameLen)
    {json : Json} {s s' : Session} {x : Except Failure Unit}
    (h : extractEntry E resource file e json s = .ok (x, s')) :
    s'.nodes file = s.nodes file
      ∨ e.KindOf (s'.nodes file) ∧ (s.nodes file = none ∨ e.KindOf (s.nodes file)) := by
  have hkind := extractItem_kind (E := E) resource (e := e) hfits s
  obtain ⟨f, hitem, -⟩ | ⟨t, hitem, hset, -⟩ := extractEntry_cases h
  · rwa [hitem] at hkind
  · rw [hitem] at hkind
    rwa [(setMetadata_frame hset).1]

end Item

/-- No two items have the same name. -/
def NamesDistinct (items : List Json) : Prop :=
  (items.map (fun item => item.stringMember "name".toList)).Nodup

/-- The place of an item below a target, with the entry at the position of the item. -/
def PlaceAt (headers : ℕ → HeaderResult) (target : Text) (items : List Json) (n : ℕ) (q : Text)
    (e : ReadEntry) : Prop :=
  ∃ k item name, items[k]? = some item ∧ headers (n + k) = .ok e
    ∧ item.stringMember "name".toList = some name ∧ q = Text.join target name

/-- **What stands at a place is the same, or it has become what the entry of an item
leaves there**, in part or in whole. -/
def Ahead (headers : ℕ → HeaderResult) (target : Text) (items : List Json) (n : ℕ) (q : Text)
    (x y : Option Node) : Prop :=
  y = x ∨ ∃ e, PlaceAt headers target items n q e ∧ e.KindOf y ∧ (x = none ∨ e.KindOf x)

section Attempts

variable {E : Irods} {headers : ℕ → HeaderResult} {resource : Option Text} {target q : Text}
  {items : List Json} {n : ℕ}

/-- Items with one name are one item. -/
theorem NamesDistinct.index_eq (h : NamesDistinct items) {k k' : ℕ} {item item' : Json}
    (hitem : items[k]? = some item) (hitem' : items[k']? = some item')
    (hname : item.stringMember "name".toList = item'.stringMember "name".toList) : k = k' := by
  have hlt : k < (items.map (fun item => item.stringMember "name".toList)).length := by
    rw [List.length_map]
    exact (List.getElem?_eq_some_iff.mp hitem).1
  refine (List.getElem?_inj hlt h).mp ?_
  rw [List.getElem?_map, List.getElem?_map, hitem, hitem']
  exact congrArg some hname

/-- A place belongs to one item. -/
theorem PlaceAt.unique (hdistinct : NamesDistinct items) {e e' : ReadEntry}
    (h : PlaceAt headers target items n q e) (h' : PlaceAt headers target items n q e') :
    e = e' := by
  obtain ⟨k, item, name, hitem, hheader, hname, rfl⟩ := h
  obtain ⟨k', item', name', hitem', hheader', hname', hq⟩ := h'
  obtain rfl := Text.join_right_injective target hq
  obtain rfl := hdistinct.index_eq hitem hitem' (hname.trans hname'.symm)
  exact HeaderResult.ok.inj (hheader.symm.trans hheader')

theorem PlaceAt.placeOf {e : ReadEntry} (h : PlaceAt headers target items n q e) :
    PlaceOf target items q := by
  obtain ⟨k, item, name, hitem, -, hname, hq⟩ := h
  exact ⟨item, List.mem_of_getElem? hitem, name, hname, hq⟩

theorem Ahead.trans (hdistinct : NamesDistinct items) {x y z : Option Node}
    (h : Ahead headers target items n q x y) (h' : Ahead headers target items n q y z) :
    Ahead headers target items n q x z := by
  rcases h with rfl | ⟨e, hplace, hy, hx⟩
  · exact h'
  rcases h' with rfl | ⟨e', hplace', hz, -⟩
  · exact .inr ⟨e, hplace, hy, hx⟩
  · obtain rfl := hplace.unique hdistinct hplace'
    exact .inr ⟨e, hplace, hz, hx⟩

/-- The collection a target is in is no place below the target. -/
theorem parent_not_placeOf (htarget : target ≠ []) :
    ¬ PlaceOf target items (Text.parent target) := by
  rintro ⟨item, -, name, -, hjoin⟩
  have hlong : (Text.parent target).length = target.length + (name.length + 1) := by
    rw [hjoin, Text.join, List.length_append, List.length_cons]
  have hpos : 0 < target.length := List.length_pos_iff.mpr htarget
  have hshort : (Text.parent target).length ≤ target.length := by
    unfold Text.parent
    dsimp only
    split
    · exact hpos
    · have hdrop : (target.reverse.dropWhile (fun c => c != '/')).length ≤ target.reverse.length :=
        (List.dropWhile_sublist _).length_le
      rw [List.length_reverse] at hdrop
      rw [List.length_reverse, List.length_drop]
      omega
  omega

/-- **What an attempt may change**: the target, if it has made it, what the items lay
out, and of their attributes no more than an extraction makes up for. -/
structure Attempted (headers : ℕ → HeaderResult) (target : Text) (items : List Json) (n : ℕ)
    (s s' : Session) : Prop where
  places : ∀ q, q ≠ target → Ahead headers target items n q (s.nodes q) (s'.nodes q)
  made : s'.nodes target = s.nodes target
    ∨ s.nodes target = none ∧ s.nodes (Text.parent target) = some .coll
      ∧ s'.nodes target = some .coll
  avus : ∀ q, ¬ PlaceOf target items q → s'.avus q = s.avus q
  edits : ∀ item ∈ items, ∀ name, item.stringMember "name".toList = some name →
    KeyedEdit.applyAll Avu.name (itemEdits item) (s'.avus (Text.join target name))
      = KeyedEdit.applyAll Avu.name (itemEdits item) (s.avus (Text.join target name))

/-- What attempts leave elsewhere. -/
theorem Attempted.elsewhere {s s' : Session} (h : Attempted headers target items n s s')
    (hq : q ≠ target) (hplace : ¬ PlaceOf target items q) : s'.nodes q = s.nodes q := by
  rcases h.places q hq with hsame | ⟨e, he, -⟩
  · exact hsame
  · exact absurd he.placeOf hplace

theorem Attempted.of_eq {s t : Session} (hnodes : t.nodes = s.nodes) (havus : t.avus = s.avus) :
    Attempted headers target items n s t where
  places q _ := .inl (congrFun hnodes q)
  made := .inl (congrFun hnodes target)
  avus q _ := congrFun havus q
  edits _ _ _ _ := by rw [havus]

theorem Attempted.trans (hdistinct : NamesDistinct items) (htarget : target ≠ [])
    {s t u : Session} (h : Attempted headers target items n s t)
    (h' : Attempted headers target items n t u) : Attempted headers target items n s u where
  places q hq := (h.places q hq).trans hdistinct (h'.places q hq)
  made := by
    rcases h.made with hsame | ⟨hnone, hparent, hmade⟩
    · rcases h'.made with hsame' | ⟨hnone', hparent', hmade'⟩
      · exact .inl (hsame'.trans hsame)
      · -- the collection above the target is another one, since the target is not there
        have hne : Text.parent target ≠ target := fun heq => by
          rw [heq, hnone'] at hparent'
          cases hparent'
        refine .inr ⟨hsame ▸ hnone', ?_, hmade'⟩
        rw [← h.elsewhere hne (parent_not_placeOf htarget)]
        exact hparent'
    · rcases h'.made with hsame' | ⟨hnone', -, -⟩
      · exact .inr ⟨hnone, hparent, hsame'.trans hmade⟩
      · rw [hmade] at hnone'
        cases hnone'
  avus q hplace := (h'.avus q hplace).trans (h.avus q hplace)
  edits item hitem name hname :=
    (h'.edits item hitem name hname).trans (h.edits item hitem name hname)

/-- One item of an attempt. -/
theorem attempted_extractEntry (hdistinct : NamesDistinct items) (hfits : PathsFit target items)
    {k : ℕ} {json : Json} (hjson : items[k]? = some json) {file : Text} {e : ReadEntry}
    (hheader : headers (n + k) = .ok e) {s s' : Session} {x : Except Failure Unit}
    (hname : json.stringMember "name".toList = some file)
    (h : extractEntry E resource (Text.join target file) e json s = .ok (x, s')) :
    Attempted headers target items n s s' := by
  have hmem : json ∈ items := List.mem_of_getElem? hjson
  have hframe : ∀ q, q ≠ Text.join target file →
      s'.nodes q = s.nodes q ∧ s'.avus q = s.avus q :=
    fun q hq => extractEntry_frame (hfits json hmem file hname) h hq
  refine ⟨fun q _ => ?_, ?_, fun q hplace => ?_, fun item hitem name hname' => ?_⟩
  · by_cases hq : q = Text.join target file
    · subst hq
      refine (extractEntry_kind (hfits json hmem file hname) h).imp id (fun hkind => ?_)
      exact ⟨e, ⟨k, json, file, hjson, hheader, hname, rfl⟩, hkind⟩
    · exact .inl (hframe q hq).1
  · refine .inl (hframe target (fun heq => ?_)).1
    have hlen := congrArg List.length heq
    rw [Text.join, List.length_append, List.length_cons] at hlen
    omega
  · refine (hframe q ?_).2
    rintro rfl
    exact hplace ⟨json, hmem, file, hname, rfl⟩
  · by_cases hsame : name = file
    · subst hsame
      obtain ⟨k', hk'⟩ := List.mem_iff_getElem?.mp hitem
      obtain rfl := hdistinct.index_eq hk' hjson (hname'.trans hname.symm)
      obtain rfl := Option.some.inj (hk'.symm.trans hjson)
      obtain ⟨⟨part, hpart, havus⟩, -⟩ := edited_extractEntry h
      rw [havus, Function.update_self]
      exact KeyedEdit.applyAll_applyAll (fun e he => hpart.subset he) _
    · have hne : Text.join target name ≠ Text.join target file :=
        fun heq => hsame (Text.join_right_injective target heq)
      rw [(hframe _ hne).2]

/-- The items of an attempt, however it ends. -/
theorem attempted_extractLoop (hdistinct : NamesDistinct items) (htarget : target ≠ [])
    (hfits : PathsFit target items) {space : ℤ} {status : Status} {s : Session} {r : Extraction}
    (h : extractLoop E headers resource none target space items n status s = .ok r) :
    Attempted headers target items n s r.session := by
  refine extractLoop_keeps (R := Attempted headers target items n) (fun _ => .of_eq rfl rfl)
    (.trans hdistinct htarget) (fun {k json file e u v x} hk hheader hname hentry => ?_) h
  exact attempted_extractEntry hdistinct hfits hk hheader hname hentry

/-- Making the target. -/
theorem attempted_collCreate (hfits : target.length < Text.maxNameLen) (s : Session) :
    Attempted headers target items n s (s.collCreate E (Text.rstrcpy target) false).2 := by
  rw [Text.rstrcpy_of_fits hfits]
  cases hcreate : s.collCreate E target false with
  | mk x t =>
    have havus : t.avus = s.avus := by
      have h := avus_collCreate (E := E) target s
      rwa [hcreate] at h
    cases x with
    | error f =>
      refine .of_eq ?_ havus
      rw [request_error hcreate]
      rfl
    | ok =>
      obtain ⟨hnone, hparent, hnodes⟩ := collCreate_ok hcreate
      refine ⟨fun q hq => .inl ?_, .inr ⟨hnone, hparent, ?_⟩, fun q _ => congrFun havus q,
        fun _ _ _ _ => by rw [havus]⟩
      · rw [hnodes, Function.update_of_ne hq]
      · rw [hnodes, Function.update_self]

/-- **An attempt, however it ends.** -/
theorem attempted_extract {J : Jansson} {rows : SpaceQuery}
    {archiveIn pathIn extractIn resourceIn : MsParam} {s : Session} {r : Extracted}
    (hpath : ∀ path, pathIn.parseMspForStr = some path → path = target)
    (hall : extractIn.parseMspForStr = none)
    (hitems : ∀ archive a s₁, archiveIn.parseMspForStr = some archive →
      openArchive J E headers archive s = .ok (some a, s₁) → a.items = items)
    (hdistinct : NamesDistinct items) (htarget : target ≠ [])
    (hfits : target.length < Text.maxNameLen ∧ PathsFit target items)
    (h : msiArchiveExtract J E rows headers archiveIn pathIn extractIn resourceIn s = .ok r) :
    Attempted headers target items 1 s r.session := by
  have hclose : ∀ (t : Session) (path : Text),
      Attempted headers target items 1 t (t.objClose E path).2 :=
    fun t path => .of_eq (objClose_frame t E path).1 (objClose_frame t E path).2
  rcases msiArchiveExtract_cases h with ⟨hsame, -⟩ | ⟨archive, path, harchive, hparse, hopened⟩
  · rw [hsame]
    exact .of_eq rfl rfl
  obtain rfl := hpath path hparse
  rcases hopened with ⟨hopen, -⟩ | ⟨a, s₁, hopen⟩
  · obtain ⟨hnodes, havus⟩ := openArchive_frame hopen
    exact .of_eq hnodes havus
  · obtain rfl := hitems archive a s₁ harchive hopen
    obtain ⟨hnodes, havus⟩ := openArchive_frame hopen
    refine .trans hdistinct htarget (.of_eq hnodes havus) ?_
    rw [msiArchiveExtract_eq harchive hparse hopen, hall] at h
    dsimp only at h
    split at h
    · obtain rfl := Except.ok.inj h
      exact hclose s₁ a.path
    · refine .trans hdistinct htarget (attempted_collCreate (E := E) hfits.1 s₁) ?_
      cases hloop : extractLoop E headers resourceIn.parseMspForStr none path
          (checkSpace rows resourceIn.parseMspForStr none a.dataSize).2 a.items 1
          (checkSpace rows resourceIn.parseMspForStr none a.dataSize).1
          (s₁.collCreate E (Text.rstrcpy path) false).2 with
      | error fault =>
        rw [hloop] at h
        cases h
      | ok r' =>
        rw [hloop] at h
        obtain rfl := Except.ok.inj h
        exact (attempted_extractLoop hdistinct htarget hfits.2 hloop).trans hdistinct htarget
          (hclose r'.session a.path)

/-! ## A complete extraction -/

/-- **The loop that extracts all items** lays all of them out and edits the attributes of
each. -/
theorem extractLoop_complete (hE : ∀ n, E.deny n = none) {space : ℤ} {items : List Json} :
    ∀ {n : ℕ} {status : Status} {s : Session} {r : Extraction}, target ≠ [] →
      NamesDistinct items → PathsFit target items →
      extractLoop E headers resource none target space items n status s = .ok r →
      r.extracted = items →
      (∀ item ∈ items, ∀ name, item.stringMember "name".toList = some name →
          name ∈ (layout headers items n).map Prod.fst)
        ∧ ∀ item ∈ items, ∀ name, item.stringMember "name".toList = some name →
          r.session.avus (Text.join target name)
            = KeyedEdit.applyAll Avu.name (itemEdits item) (s.avus (Text.join target name)) := by
  induction items with
  | nil => exact fun _ _ _ _ _ => ⟨List.forall_mem_nil _, List.forall_mem_nil _⟩
  | cons json items ih =>
    intro n status s r htarget hdistinct hfits h hall
    cases hheader : headers n with
    | ok e =>
      cases hname : json.stringMember "name".toList with
      | none =>
        rw [extractLoop_nameless hheader hname] at h
        cases h
      | some file =>
        rw [extractLoop_cons (n := n) hheader hname] at h
        cases hentry : extractEntry E resource (Text.join target file) e json s with
        | error fault =>
          rw [hentry] at h
          cases h
        | ok p =>
          obtain ⟨x, t⟩ := p
          rw [hentry] at h
          cases x with
          | error f =>
            obtain rfl := Except.ok.inj h
            cases hall
          | ok =>
            dsimp only at h
            cases hloop : extractLoop E headers resource none target space items (n + 1) (.num 0)
                t with
            | error fault =>
              rw [hloop] at h
              cases h
            | ok r' =>
              rw [hloop] at h
              obtain rfl := Except.ok.inj h
              have hfits' : PathsFit target items :=
                fun item hitem => hfits item (List.mem_cons_of_mem _ hitem)
              have hnodup := List.nodup_cons.mp hdistinct
              obtain ⟨hlaid, hedits⟩ := ih htarget hnodup.2 hfits' hloop (List.cons.inj hall).2
              have hother : ∀ item ∈ items, ∀ name, item.stringMember "name".toList = some name →
                  Text.join target name ≠ Text.join target file := by
                intro item hitem name hname' heq
                obtain rfl := Text.join_right_injective target heq
                exact hnodup.1 (List.mem_map.mpr ⟨item, hitem, hname'.trans hname.symm⟩)
              obtain ⟨-, hedited⟩ := edited_extractEntry hentry
              obtain ⟨part, -, havus, hpart⟩ := hedited rfl
              rw [hpart hE] at havus
              refine ⟨List.forall_mem_cons.mpr
                  ⟨fun name hname' => ?_, fun item hitem name hname' => ?_⟩,
                List.forall_mem_cons.mpr ⟨fun name hname' => ?_, fun item hitem name hname' => ?_⟩⟩
              · rw [layout_cons hheader hname, Option.some.inj (hname'.symm.trans hname)]
                exact List.mem_cons_self
              · rw [layout_cons hheader hname]
                exact List.mem_cons_of_mem _ (hlaid item hitem name hname')
              · obtain rfl := Option.some.inj (hname'.symm.trans hname)
                -- the items after it are at other places
                have hrest : r'.session.avus (Text.join target name)
                    = t.avus (Text.join target name) := by
                  refine (attempted_extractLoop hnodup.2 htarget hfits' hloop).avus _ ?_
                  rintro ⟨item, hitem, name', hname'', heq⟩
                  exact hother item hitem name' hname'' heq.symm
                show r'.session.avus _ = _
                rw [hrest, havus, Function.update_self]
              · show r'.session.avus _ = _
                rw [hedits item hitem name hname', havus,
                  Function.update_of_ne (hother item hitem name hname')]
    | _ =>
      rw [extractLoop_stop (by simp [hheader])] at h
      obtain rfl := Except.ok.inj h
      cases hall

end Attempts

/-! ## Going further than before -/

section Succeed

variable {E E' : Irods} {headers : ℕ → HeaderResult} {resource : Option Text} {target : Text}

/-- A server that serves writes all blocks, and closes the object. -/
theorem writeBlocks_succeeds (hE : E.Serves) {path : Text} {blocks : List Bytes} :
    ∀ {s : Session}, (∃ data, s.nodes path = some (.obj data)) →
      ∃ s', writeBlocks E path false blocks s = (.ok (), s') := by
  have hclose : ∀ s : Session, ∃ s', s.objClose E path = (.ok (), s') := by
    intro s
    unfold objClose
    rw [request_of_willing (fun n => (hE n).1)]
    exact ⟨_, rfl⟩
  induction blocks with
  | nil => exact fun _ => hclose _
  | cons block blocks ih =>
    rintro s ⟨data, hdata⟩
    cases block with
    | nil => exact hclose s
    | cons b buf =>
      unfold writeBlocks
      have hwrite : ∃ n t, s.objWrite E path (b :: buf) = (.ok n, t)
          ∧ ∃ data, t.nodes path = some (.obj data) := by
        unfold objWrite
        rw [hdata]
        dsimp only
        rw [request_of_willing (fun n => (hE n).1)]
        exact ⟨_, _, rfl, _, nodes_put_self ..⟩
      obtain ⟨n, t, hwrite, ht⟩ := hwrite
      rw [hwrite]
      exact ih ht

/-- An entry is read to its end where its data are written and no error is returned. -/
theorem writeBlocks_fails {path : Text} {fails : Bool} {blocks : List Bytes} :
    ∀ {s s' : Session}, [] ∉ blocks → writeBlocks E path fails blocks s = (.ok (), s') →
      fails = false := by
  induction blocks with
  | nil =>
    intro s s' _ h
    cases fails with
    | true => cases (Prod.mk.inj h).1
    | false => rfl
  | cons block blocks ih =>
    intro s s' hempty h
    rw [List.mem_cons, not_or] at hempty
    cases block with
    | nil => exact absurd rfl hempty.1
    | cons b buf =>
      unfold writeBlocks at h
      cases hwrite : s.objWrite E path (b :: buf) with
      | mk x t =>
        rw [hwrite] at h
        cases x with
        | error f => cases (Prod.mk.inj h).1
        | ok n => exact ih hempty.2 h

/-- **Where an item can be extracted**: in a collection where nothing is, or in the place
of what is of its kind. -/
def Fits (e : ReadEntry) (file : Text) (nodes : Text → Option Node) : Prop :=
  (nodes file = none ∧ nodes (Text.parent file) = some .coll) ∨ e.KindOf (nodes file)

theorem fits_of_extractItem (hE : E.Honest) {e : ReadEntry} (hblocks : [] ∉ e.blocks) {file : Text}
    (hfits : file.length < Text.maxNameLen) {s t : Session}
    (h : extractItem E resource e file s = (.ok (), t)) :
    Fits e file s.nodes ∧ (e.isDir = false → e.fails = false) := by
  refine ⟨?_, fun hdir => ?_⟩
  · unfold Fits ReadEntry.KindOf
    rcases extractItem_from hE hfits h with hnew | ⟨hdir, hobj⟩ | ⟨hcoll, hdir⟩
    · exact .inl hnew
    · rw [hdir]
      exact .inr hobj
    · rw [hdir]
      exact .inr hcoll
  · unfold extractItem at h
    rw [hdir, if_neg Bool.false_ne_true] at h
    cases hcreat : creat E file resource s with
    | mk y u =>
      rw [hcreat] at h
      cases y with
      | error f => cases (Prod.mk.inj h).1
      | ok => exact writeBlocks_fails hblocks h

theorem extractItem_succeeds (hE : E.Serves) (resource : Option Text) {e : ReadEntry} {file : Text}
    (hfits : file.length < Text.maxNameLen) {s : Session} (hplace : Fits e file s.nodes)
    (hfails : e.isDir = false → e.fails = false) :
    ∃ t, extractItem E resource e file s = (.ok (), t) := by
  have hdeny : ∀ n, E.deny n = none := fun n => (hE n).1
  unfold Fits ReadEntry.KindOf at hplace
  unfold extractItem
  rw [Text.rstrcpy_of_fits hfits]
  cases hdir : e.isDir with
  | true =>
    rw [hdir, if_pos rfl] at hplace
    rw [if_pos rfl]
    unfold collCreate
    rcases hplace with ⟨hnone, hparent⟩ | hcoll
    · rw [hnone]
      dsimp only
      rw [if_neg Bool.false_ne_true, if_pos hparent, request_of_willing hdeny]
      exact ⟨_, rfl⟩
    · rw [hcoll]
      dsimp only
      unfold request
      rw [hdeny]
      dsimp only
      rw [if_pos (Failure.status_ofCode _)]
      exact ⟨_, rfl⟩
  | false =>
    rw [hdir, if_neg Bool.false_ne_true] at hplace
    rw [if_neg Bool.false_ne_true, hfails hdir]
    have hwilling : E.Willing := fun n => ⟨(hE n).1, by simp [(hE n).2]⟩
    have hhere : (∃ data, s.nodes (Text.rstrcpy file) = some (.obj data))
        ∨ s.nodes (Text.rstrcpy file) = none
          ∧ s.nodes (Text.parent (Text.rstrcpy file)) = some .coll := by
      rw [Text.rstrcpy_of_fits hfits]
      exact hplace.symm
    obtain ⟨t, hcreat⟩ := creat_of_willing hwilling resource hhere
    obtain ⟨-, -, hok⟩ := creat_spec hcreat
    obtain ⟨-, hnodes⟩ := hok rfl
    rw [Text.rstrcpy_of_fits hfits] at hnodes
    rw [hcreat]
    exact writeBlocks_succeeds hE ⟨[], by rw [hnodes, Function.update_self]⟩

/-- A collection is of the kind of a directory. -/
theorem isDir_of_kindOf_coll {e : ReadEntry} (h : e.KindOf (some .coll)) : e.isDir = true := by
  unfold ReadEntry.KindOf at h
  cases hdir : e.isDir with
  | true => rfl
  | false =>
    rw [hdir, if_neg Bool.false_ne_true] at h
    obtain ⟨data, hdata⟩ := h
    cases hdata

/-- An item that fits fits where more is there already. -/
theorem Fits.of_ahead {items : List Json} {n : ℕ} (hdistinct : NamesDistinct items)
    {nodes nodes' : Text → Option Node}
    (hahead : ∀ q, Ahead headers target items n q (nodes q) (nodes' q)) {file : Text}
    {e : ReadEntry} (hplace : PlaceAt headers target items n file e) (h : Fits e file nodes) :
    Fits e file nodes' := by
  rcases hahead file with hsame | ⟨e', hplace', hkind, -⟩
  · rcases h with ⟨hnone, hparent⟩ | hkind
    · refine .inl ⟨hsame.trans hnone, ?_⟩
      rcases hahead (Text.parent file) with hsame' | ⟨e', -, hnew, hold⟩
      · exact hsame'.trans hparent
      · -- what becomes a collection is one of a directory, so it still is a collection
        rw [hparent] at hold
        have hdir := isDir_of_kindOf_coll (hold.resolve_left (by simp))
        unfold ReadEntry.KindOf at hnew
        rwa [if_pos hdir] at hnew
    · exact .inr (hsame ▸ hkind)
  · obtain rfl := hplace.unique hdistinct hplace'
    exact .inr hkind

/-- **Where the loop extracts all items, it extracts them all from further on.** The
induction is on the items; both runs leave the same at the place of each. -/
theorem extractLoop_ahead (hE : E.Serves) (hE' : E'.Serves) (hblocks : NoEmptyBlock headers)
    {space : ℤ} {items : List Json} :
    ∀ {n : ℕ} {status : Status} {u v : Session} {r : Extraction}, NamesDistinct items →
      PathsFit target items →
      (∀ q, Ahead headers target items n q (u.nodes q) (v.nodes q)) →
      extractLoop E headers resource none target space items n status u = .ok r →
      r.extracted = items →
      ∃ r', extractLoop E' headers resource none target space items n status v = .ok r'
        ∧ r'.extracted = items ∧ r'.status = r.status := by
  induction items with
  | nil =>
    intro n status u v r _ _ _ h _
    obtain rfl := Except.ok.inj h
    exact ⟨_, rfl, rfl, rfl⟩
  | cons json items ih =>
    intro n status u v r hdistinct hfits hahead h hall
    cases hheader : headers n with
    | ok e =>
      cases hname : json.stringMember "name".toList with
      | none =>
        rw [extractLoop_nameless hheader hname] at h
        cases h
      | some file =>
        rw [extractLoop_cons (n := n) hheader hname] at h ⊢
        have hfile := hfits json List.mem_cons_self file hname
        have hplace : PlaceAt headers target (json :: items) n (Text.join target file) e :=
          ⟨0, json, file, rfl, hheader, hname, rfl⟩
        cases hentry : extractEntry E resource (Text.join target file) e json u with
        | error fault =>
          rw [hentry] at h
          cases h
        | ok p =>
          obtain ⟨x, t⟩ := p
          rw [hentry] at h
          cases x with
          | error f =>
            obtain rfl := Except.ok.inj h
            cases hall
          | ok =>
            obtain ⟨t₀, hitem, hset⟩ := extractEntry_ok_iff.mp hentry
            obtain ⟨hhere, hfails⟩ :=
              fits_of_extractItem hE.honest (hblocks n e hheader) hfile hitem
            obtain ⟨t₁, hitem'⟩ := extractItem_succeeds hE' resource hfile
              (hhere.of_ahead hdistinct hahead hplace) hfails
            obtain ⟨t', hset'⟩ : ∃ t', setMetadata E' (Text.join target file) json t₁ = .ok t' :=
              setMetadata_ok_iff.mpr (setMetadata_ok_iff.mp ⟨t, hset⟩)
            have hentry' : extractEntry E' resource (Text.join target file) e json v
                = .ok (.ok (), t') := extractEntry_ok_iff.mpr ⟨t₁, hitem', hset'⟩
            have hahead' : ∀ q, Ahead headers target items (n + 1) q (t.nodes q) (t'.nodes q) := by
              intro q
              by_cases hq : q = Text.join target file
              · subst hq
                left
                rw [(extractEntry_part hE.honest (hblocks n e hheader) hfile hentry).1 rfl,
                  (extractEntry_part hE'.honest (hblocks n e hheader) hfile hentry').1 rfl]
              · rw [(extractEntry_frame hfile hentry hq).1, (extractEntry_frame hfile hentry' hq).1]
                refine (hahead q).imp id ?_
                rintro ⟨e', ⟨k, item, name, hk, hheader', hname', hjoin⟩, hkinds⟩
                cases k with
                | zero =>
                  obtain rfl := Option.some.inj hk
                  obtain rfl := Option.some.inj (hname.symm.trans hname')
                  exact absurd hjoin hq
                | succ k =>
                  refine ⟨e', ⟨k, item, name, hk, ?_, hname', hjoin⟩, hkinds⟩
                  rw [← hheader', Nat.add_assoc, Nat.add_comm 1 k]
            rw [hentry']
            dsimp only at h ⊢
            cases hloop : extractLoop E headers resource none target space items (n + 1) (.num 0)
                t with
            | error fault =>
              rw [hloop] at h
              cases h
            | ok r₁ =>
              rw [hloop] at h
              obtain rfl := Except.ok.inj h
              obtain ⟨r', hr', hall', hstatus⟩ := ih (List.nodup_cons.mp hdistinct).2
                (fun item hitem => hfits item (List.mem_cons_of_mem _ hitem)) hahead' hloop
                (List.cons.inj hall).2
              rw [hr']
              exact ⟨_, rfl, congrArg (json :: ·) hall', hstatus⟩
    | _ =>
      rw [extractLoop_stop (by simp [hheader])] at h
      obtain rfl := Except.ok.inj h
      cases hall

/-- Making a collection where the server serves. -/
theorem collCreate_serves (hE : E.Serves) (path : Text) (s : Session) :
    (s.collCreate E path false).2.nodes path
      = if s.nodes path = none ∧ s.nodes (Text.parent path) = some .coll then some .coll
        else s.nodes path := by
  cases hcreate : s.collCreate E path false with
  | mk x t =>
    cases x with
    | ok =>
      obtain ⟨hnone, hparent, hnodes⟩ := collCreate_ok hcreate
      rw [if_pos ⟨hnone, hparent⟩, hnodes, Function.update_self]
    | error f =>
      rw [if_neg]
      · rw [request_error hcreate]
        rfl
      · rintro ⟨hnone, hparent⟩
        unfold collCreate at hcreate
        rw [hnone] at hcreate
        dsimp only at hcreate
        rw [if_neg Bool.false_ne_true, if_pos hparent,
          request_of_willing (fun n => (hE n).1)] at hcreate
        cases (Prod.mk.inj hcreate).1

/-- What stands anywhere after attempts, with the target made, is further on. -/
theorem Attempted.ahead (hE : E.Serves) (hE' : E'.Serves) (htarget : target ≠ [])
    {items : List Json} {s s' : Session} (h : Attempted headers target items 1 s s') (q : Text) :
    Ahead headers target items 1 q ((s.collCreate E target false).2.nodes q)
      ((s'.collCreate E' target false).2.nodes q) := by
  by_cases hq : q = target
  · subst hq
    left
    rw [collCreate_serves hE, collCreate_serves hE']
    rcases h.made with hsame | ⟨hnone, hparent, hmade⟩
    · rw [hsame]
      by_cases hparent : Text.parent q = q
      · rw [hparent, hsame]
      · rw [h.elsewhere hparent (parent_not_placeOf htarget)]
    · have hthere : ¬ (s'.nodes q = none ∧ s'.nodes (Text.parent q) = some .coll) := by
        simp [hmade]
      rw [if_pos (c := s.nodes q = none ∧ _) ⟨hnone, hparent⟩, if_neg hthere, hmade]
  · rw [collCreate_frame hE.honest hq, collCreate_frame hE'.honest hq]
    exact h.places q hq

/-- What has been laid out at a place does not depend on what was there. -/
theorem lay_of_place {q : Text} {items : List (Text × Node)}
    (h : ∃ p ∈ items, q = Text.join target p.1) :
    ∀ nodes nodes' : Text → Option Node, lay target items nodes q = lay target items nodes' q := by
  induction items with
  | nil =>
    obtain ⟨p, hp, -⟩ := h
    exact absurd hp List.not_mem_nil
  | cons p items ih =>
    intro nodes nodes'
    by_cases hlater : ∃ p ∈ items, q = Text.join target p.1
    · exact ih hlater _ _
    · obtain ⟨p', hp', hq⟩ := h
      rcases List.mem_cons.mp hp' with rfl | hp'
      · refine lay_congr items ?_
        rw [hq]
        show Function.update nodes (Text.join target p'.1) (some p'.2) (Text.join target p'.1)
          = Function.update nodes' (Text.join target p'.1) (some p'.2) (Text.join target p'.1)
        rw [Function.update_self, Function.update_self]
      · exact absurd ⟨p', hp', hq⟩ hlater

/-- **Two complete loops, the second from further on, leave the same.** -/
theorem extractLoop_same (hE : E.Serves) (hE' : E'.Serves) (hblocks : NoEmptyBlock headers)
    (htarget : target ≠ []) {space : ℤ} {status : Status} {items : List Json}
    (hdistinct : NamesDistinct items) (hfits : PathsFit target items) {u v : Session}
    {r r' : Extraction}
    (hahead : ∀ q, Ahead headers target items 1 q (u.nodes q) (v.nodes q))
    (havus : ∀ q, ¬ PlaceOf target items q → v.avus q = u.avus q)
    (hedits : ∀ item ∈ items, ∀ name, item.stringMember "name".toList = some name →
      KeyedEdit.applyAll Avu.name (itemEdits item) (v.avus (Text.join target name))
        = KeyedEdit.applyAll Avu.name (itemEdits item) (u.avus (Text.join target name)))
    (h : extractLoop E headers resource none target space items 1 status u = .ok r)
    (hall : r.extracted = items)
    (h' : extractLoop E' headers resource none target space items 1 status v = .ok r')
    (hall' : r'.extracted = items) :
    r'.session.nodes = r.session.nodes ∧ r'.session.avus = r.session.avus := by
  obtain ⟨hlaid, hdone⟩ := extractLoop_complete (fun n => (hE n).1) htarget hdistinct hfits h hall
  obtain ⟨-, hdone'⟩ := extractLoop_complete (fun n => (hE' n).1) htarget hdistinct hfits h' hall'
  have hnodes : ∀ {F : Irods} {w : Session} {x : Extraction}, F.Honest →
      extractLoop F headers resource none target space items 1 status w = .ok x →
      x.extracted = items →
      ∀ q, x.session.nodes q = lay target (layout headers items 1) w.nodes q := by
    intro F w x hF hx hxall q
    obtain ⟨-, hpart⟩ := extractLoop_partial hF hblocks hfits hx
    rw [hxall] at hpart
    rcases hpart q with hq | ⟨item, name, e, hnone, -⟩
    · exact hq
    · rw [List.getElem?_eq_none le_rfl] at hnone
      cases hnone
  constructor
  · funext q
    rw [hnodes hE.honest h hall, hnodes hE'.honest h' hall']
    rcases hahead q with hsame | ⟨e, ⟨k, item, name, hk, -, hname, hq⟩, -⟩
    · exact lay_congr _ hsame
    · obtain ⟨p, hp, hpname⟩ := List.mem_map.mp (hlaid item (List.mem_of_getElem? hk) name hname)
      exact lay_of_place ⟨p, hp, by rw [hq, hpname]⟩ _ _
  · funext q
    by_cases hplace : PlaceOf target items q
    · obtain ⟨item, hitem, name, hname, rfl⟩ := hplace
      rw [hdone item hitem name hname, hdone' item hitem name hname, hedits item hitem name hname]
    · rw [(attempted_extractLoop hdistinct htarget hfits h).avus q hplace,
        (attempted_extractLoop hdistinct htarget hfits h').avus q hplace, havus q hplace]

end Succeed

/-! ## The service -/

/-- **One attempt to extract an archive**, on any server, however it ends. -/
def Attempt (L : Libarchive) (J : Jansson) (archive target : Text) (s s' : Session) : Prop :=
  ∃ (E : Irods) (rows : SpaceQuery) (extractIn resourceIn : MsParam) (data : Bytes)
    (r : Extracted), s.nodes (Text.rstrcpy archive) = some (.obj data)
      ∧ extractIn.parseMspForStr = none
      ∧ msiArchiveExtract J E rows (L.entryAt data) (.ofText archive) (.ofText target) extractIn
        resourceIn s = .ok r
      ∧ r.session = s'

/-- What any number of attempts leave, with the archive itself. -/
theorem attempted_of_attempts {L : Libarchive} {J : Jansson} {E : Irods} {archive target : Text}
    {data : Bytes} {a : ReadArchive} {s s₁ s' : Session}
    (hdata : s.nodes (Text.rstrcpy archive) = some (.obj data))
    (hopen : openArchive J E (L.entryAt data) archive s = .ok (some a, s₁))
    (hdistinct : NamesDistinct a.items) (htarget : target ≠ [])
    (hfits : target.length < Text.maxNameLen ∧ PathsFit target a.items)
    (hapart : Text.rstrcpy archive ≠ target ∧ ¬ PlaceOf target a.items (Text.rstrcpy archive))
    (h : Relation.ReflTransGen (Attempt L J archive target) s s') :
    Attempted (L.entryAt data) target a.items 1 s s'
      ∧ s'.nodes (Text.rstrcpy archive) = some (.obj data) := by
  induction h with
  | refl => exact ⟨.of_eq rfl rfl, hdata⟩
  | @tail t u _ hattempt ih =>
    obtain ⟨hsofar, hkept⟩ := ih
    obtain ⟨E', rows, extractIn, resourceIn, data', r, hdata', hall, hrun, rfl⟩ := hattempt
    obtain rfl := Node.obj.inj (Option.some.inj (hkept.symm.trans hdata'))
    have hone : Attempted (L.entryAt data) target a.items 1 t r.session := by
      refine attempted_extract (fun path hpath => (MsParam.eq_of_parseMspForStr hpath).symm) hall
        (fun archive' a' t₁ harchive hopen' => ?_) hdistinct htarget hfits hrun
      obtain rfl := MsParam.eq_of_parseMspForStr harchive
      have hsame := openArchive_again hopen (openArchive_spec hopen').1
      rw [hopen'] at hsame
      rw [Option.some.inj (Prod.mk.inj (Except.ok.inj hsame)).1]
    refine ⟨hsofar.trans hdistinct htarget hone, ?_⟩
    rw [hone.elsewhere hapart.1 hapart.2]
    exact hkept

/-- **Extracting again.** Where an archive can be extracted to the end, any number of
attempts before that, on any servers and ended in any way, make no difference: the
extraction comes to the same end after them, and leaves the same objects, collections and
attributes. -/
theorem retry_extracts {L : Libarchive} {J : Jansson} {E E' : Irods} {rows : SpaceQuery}
    {archive target : Text} {extractIn resourceIn : MsParam} {data : Bytes} {a : ReadArchive}
    {s s₁ s' : Session} {r : Extracted} (hE : E.Serves) (hE' : E'.Serves)
    (hblocks : NoEmptyBlock (L.entryAt data))
    (hdata : s.nodes (Text.rstrcpy archive) = some (.obj data))
    (hopen : openArchive J E (L.entryAt data) archive s = .ok (some a, s₁))
    (hdistinct : NamesDistinct a.items) (htarget : target ≠ [])
    (hfits : target.length < Text.maxNameLen ∧ PathsFit target a.items)
    (hapart : Text.rstrcpy archive ≠ target ∧ ¬ PlaceOf target a.items (Text.rstrcpy archive))
    (hnamed : archive ≠ "null".toList ∧ target ≠ "null".toList)
    (hall : extractIn.parseMspForStr = none)
    (hrun : msiArchiveExtract J E rows (L.entryAt data) (.ofText archive) (.ofText target)
      extractIn resourceIn s = .ok r)
    (hstatus : r.status.isNeg = false) (hcomplete : r.extracted = a.items)
    (hattempts : Relation.ReflTransGen (Attempt L J archive target) s s') :
    ∃ r', msiArchiveExtract J E' rows (L.entryAt data) (.ofText archive) (.ofText target)
        extractIn resourceIn s' = .ok r'
      ∧ r'.status = r.status ∧ r'.extracted = a.items
      ∧ r'.session.nodes = r.session.nodes ∧ r'.session.avus = r.session.avus := by
  obtain ⟨hsofar, hkept⟩ :=
    attempted_of_attempts hdata hopen hdistinct htarget hfits hapart hattempts
  -- the archive opens again, with the same items
  have hobj : ∃ t, s'.objOpen E' (Text.rstrcpy archive) false none = (.ok (), t) := by
    unfold objOpen
    rw [hkept]
    dsimp only
    rw [request_of_willing (fun n => (hE' n).1)]
    exact ⟨_, rfl⟩
  obtain ⟨t, hobj⟩ := hobj
  have hopen' := openArchive_again hopen hobj
  obtain ⟨hnodes, havus⟩ := openArchive_frame hopen
  obtain ⟨hnodes', havus'⟩ := openArchive_frame hopen'
  have harchive := MsParam.parseMspForStr_ofText hnamed.1
  have hpath := MsParam.parseMspForStr_ofText hnamed.2
  rw [msiArchiveExtract_eq harchive hpath hopen, hall, Text.rstrcpy_of_fits hfits.1] at hrun
  rw [msiArchiveExtract_eq harchive hpath hopen', hall, Text.rstrcpy_of_fits hfits.1]
  dsimp only at hrun ⊢
  split at hrun
  · rename_i hneg
    obtain rfl := Except.ok.inj hrun
    exact absurd (hneg.symm.trans hstatus) (by simp)
  · rename_i hcheck
    rw [if_neg hcheck]
    cases hloop : extractLoop E (L.entryAt data) resourceIn.parseMspForStr none target
        (checkSpace rows resourceIn.parseMspForStr none a.dataSize).2 a.items 1
        (checkSpace rows resourceIn.parseMspForStr none a.dataSize).1
        (s₁.collCreate E target false).2 with
    | error fault =>
      rw [hloop] at hrun
      cases hrun
    | ok x =>
      rw [hloop] at hrun
      obtain rfl := Except.ok.inj hrun
      have hopened : Attempted (L.entryAt data) target a.items 1 s₁ t :=
        (Attempted.of_eq hnodes.symm havus.symm).trans hdistinct htarget
          (hsofar.trans hdistinct htarget (.of_eq hnodes' havus'))
      have hmade : ∀ (F : Irods) (w : Session), (w.collCreate F target false).2.avus = w.avus :=
        fun F w => avus_collCreate target w
      have hahead : ∀ q, Ahead (L.entryAt data) target a.items 1 q
          ((s₁.collCreate E target false).2.nodes q)
          ((t.collCreate E' target false).2.nodes q) := by
        exact hopened.ahead hE hE' htarget
      obtain ⟨x', hloop', hall', hstatus'⟩ :=
        extractLoop_ahead hE hE' hblocks hdistinct hfits.2 hahead hloop hcomplete
      rw [hloop']
      obtain ⟨hsame, hsame'⟩ := extractLoop_same hE hE' hblocks htarget hdistinct hfits.2 hahead
        (fun q hplace => by rw [hmade, hmade, hopened.avus q hplace])
        (fun item hitem name hname => by
          rw [hmade, hmade]
          exact hopened.edits item hitem name hname)
        hloop hcomplete hloop' hall'
      obtain ⟨hclosed, hclosed'⟩ := objClose_frame x.session E a.path
      obtain ⟨hagain, hagain'⟩ := objClose_frame x'.session E' a.path
      exact ⟨_, rfl, hstatus', hall', hagain.trans (hsame.trans hclosed.symm),
        hagain'.trans (hsame'.trans hclosed'.symm)⟩

namespace Sample

/-- The names of the items of the tree. -/
theorem treeItems_names : treeItems.map (fun item => item.stringMember "name".toList)
    = [some "a".toList, some "a/f".toList] := rfl

theorem treeItems_fit : PathsFit "/z/t".toList treeItems := by
  intro item hitem name hname
  have hmem := List.mem_map_of_mem (f := fun item => item.stringMember "name".toList) hitem
  rw [treeItems_names, hname] at hmem
  simp only [List.mem_cons, List.not_mem_nil, or_false, Option.some.injEq] at hmem
  rcases hmem with rfl | rfl
  · decide
  · decide

/-- The items of the tree have names of their own. -/
theorem treeItems_distinct : NamesDistinct treeItems := by
  unfold NamesDistinct
  rw [treeItems_names]
  decide

/-- The archive is at none of their places. -/
theorem treeItems_apart : ¬ PlaceOf "/z/t".toList treeItems "/z/x.tar".toList := by
  rintro ⟨item, hitem, name, hname, hjoin⟩
  have hmem := List.mem_map_of_mem (f := fun item => item.stringMember "name".toList) hitem
  rw [treeItems_names, hname] at hmem
  simp only [List.mem_cons, List.not_mem_nil, or_false, Option.some.injEq] at hmem
  rcases hmem with rfl | rfl
  · exact absurd hjoin (by decide)
  · exact absurd hjoin (by decide)

end Sample

/-- The tree extracted twice. -/
theorem retry_extracts_sample : ∃ (data : Bytes) (r r' : Extracted),
    msiArchiveExtract JsonText.codec .obliging (fun _ => .ok [])
        (ArchiveText.library.entryAt data) (.ofText "/z/x.tar".toList) (.ofText "/z/t".toList)
        Sample.noParam Sample.noParam (Sample.before data) = .ok r
      ∧ msiArchiveExtract JsonText.codec .obliging (fun _ => .ok [])
        (ArchiveText.library.entryAt data) (.ofText "/z/x.tar".toList) (.ofText "/z/t".toList)
        Sample.noParam Sample.noParam r.session = .ok r'
      ∧ r'.status = .num 0 ∧ r'.extracted = Sample.treeItems
      ∧ r'.session.nodes = r.session.nodes ∧ r'.session.avus = r.session.avus := by
  obtain ⟨-, r, data, a, s₁, -, -, -, hopen, hitems, hr, hstatus, hall⟩ := Sample.extracted_tree
  have hattempt : Attempt ArchiveText.library JsonText.codec "/z/x.tar".toList "/z/t".toList
      (Sample.before data) r.session :=
    ⟨.obliging, _, Sample.noParam, Sample.noParam, data, r, rfl, rfl, hr, rfl⟩
  have hserves : Irods.Serves .obliging := fun _ => ⟨rfl, rfl⟩
  obtain ⟨r', hr', hstatus', hall', hnodes, havus⟩ := retry_extracts hserves hserves
    (ArchiveText.noEmptyBlock data) rfl hopen (hitems ▸ Sample.treeItems_distinct)
    (List.cons_ne_nil _ _) ⟨by decide, hitems ▸ Sample.treeItems_fit⟩
    ⟨by decide, hitems ▸ Sample.treeItems_apart⟩ ⟨by decide, by decide⟩ rfl hr
    (by rw [hstatus]; rfl) (hall.trans hitems.symm) (.single hattempt)
  exact ⟨data, r, r', hr, hr', hstatus'.trans hstatus, hall'.trans hitems, hnodes, havus⟩
