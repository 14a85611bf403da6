import IrodsMicroservices.CatalogTree
import IrodsMicroservices.JsonText

/-!
# The order of the walk

The calls of the walk are compared with the tree itself. `CollTree.enumerate`
lists the items of a tree in the plainest order there is – the data objects of a
collection, then each collection in it with what it holds – without any pages,
queries or worklists. The walk issues a permutation of that list
(`calls_perm`), and although it delays the inside of a collection until the
whole level has been added, nothing is added before a collection it is located
in (`calls_parents_first`).

Whether something is located in a collection is read off the names, which are
the relative paths: the collection's name and a slash start it.
-/

open Catalog

namespace ArchiveCall

/-- The item of the first call is located in the collection the second call
adds. -/
def LocatedIn (a b : ArchiveCall) : Prop := b.isColl = true ∧ b.name ++ ['/'] <+: a.name

end ArchiveCall

/-! ## The lists, complete -/

/-- An attribute as it stands in the index. -/
def Avu.json (r : Avu) : Json :=
  .object [("name".toList, .string r.name), ("value".toList, .string r.value),
    ("unit".toList, .string r.unit)]

/-- An access control entry as it stands in the index. -/
def AclRow.text (r : AclRow) : Text := r.user ++ "#".toList ++ r.zone ++ ":".toList ++ r.access

/-- All attributes of an item. -/
def fullAttributes (rows : List Avu) : Option Json :=
  if rows = [] then none else some (.array (rows.map Avu.json))

/-- All access control entries of an item. -/
def fullAcl (rows : List AclRow) : Option Json :=
  if rows = [] then none else some (.array (rows.map (fun r => .string r.text)))

/-- The attributes are valid UTF-8, the access control entries are too, and they
fit their buffer. -/
def ListsEncodable (J : Jansson) (attributes : List Avu) (acl : List AclRow) : Prop :=
  (∀ r ∈ attributes, J.utf8 r.name = true ∧ J.utf8 r.value = true ∧ J.utf8 r.unit = true)
    ∧ ∀ r ∈ acl, J.utf8 r.text = true ∧ r.text.length < Text.maxNameLen

/-- A list for which every row has an entry has the entries of all rows. -/
theorem listOf_eq {α : Type} {entry : α → Option Json} {json : α → Json} {rows : List α}
    (h : ∀ r ∈ rows, entry r = some (json r)) :
    Catalog.listOf entry rows = if rows = [] then none else some (.array (rows.map json)) := by
  unfold Catalog.listOf
  split
  · rfl
  · rw [List.filterMap_congr h]
    exact congrArg (fun es => some (Json.array es)) (congrFun List.filterMap_eq_map' rows)

theorem listOf_attrEntry {J : Jansson} {attributes : List Avu} {acl : List AclRow}
    (h : ListsEncodable J attributes acl) :
    Catalog.listOf (Catalog.attrEntry J) attributes = fullAttributes attributes := by
  refine listOf_eq (fun r hr => ?_)
  obtain ⟨h1, h2, h3⟩ := h.1 r hr
  unfold Catalog.attrEntry
  rw [Jansson.string_of_utf8 h1, Jansson.string_of_utf8 h2, Jansson.string_of_utf8 h3]
  rfl

theorem listOf_aclEntry {J : Jansson} {attributes : List Avu} {acl : List AclRow}
    (h : ListsEncodable J attributes acl) :
    Catalog.listOf (Catalog.aclEntry J) acl = fullAcl acl := by
  refine listOf_eq (fun r hr => ?_)
  obtain ⟨h1, h2⟩ := h.2 r hr
  show J.string (Text.rstrcpy r.text) = _
  rw [Text.rstrcpy_of_fits h2, Jansson.string_of_utf8 h1]

/-! ## The items of a tree -/

namespace DataObject

/-- The row of a data object whose good replicas agree. -/
def row (o : DataObject) : DataRow :=
  let r := o.replicas.head o.good
  ⟨o.name, o.id, o.size, o.owner, o.zone, r.created, r.modified, r.checksum⟩

theorem rows_of_oneRow {o : DataObject} (h : o.OneRow) : o.rows = [o.row] := by
  unfold OneRow rows at h
  rw [List.length_map] at h
  obtain ⟨r, hr⟩ := List.length_eq_one_iff.mp h
  have hmem : o.replicas.head o.good ∈ o.replicas.dedup :=
    List.mem_dedup.mpr (List.head_mem o.good)
  rw [hr] at hmem
  unfold rows row
  rw [hr, List.mem_singleton.mp hmem]
  rfl

/-- The call for a data object, with lists as given. -/
def callWith (pre : Text) (attributes acl : Option Json) (o : DataObject) : ArchiveCall :=
  .addDataObj (pre ++ o.name) (BitVec.ofInt 64 o.size) o.row.created o.row.modified o.owner
    o.zone o.row.checksum attributes acl

end DataObject

namespace CollTree

section Enumerate

variable {β γ : Type} (obj : Text → DataObject → List β) (sub : Text → Collection → List β)

mutual

/-- What is made of the items of a tree: of the data objects of a collection
(`obj`), then of each collection in it (`sub`) with what it holds. -/
def enumerate (pre : Text) : CollTree → List β
  | node c us => c.objects.flatMap (obj pre) ++ enumerateBelow pre us

/-- What is made of some collections and what they hold. -/
def enumerateBelow (pre : Text) : List CollTree → List β
  | [] => []
  | u :: us =>
    sub (pre ++ u.coll.name) u.coll ++ enumerate (u.preBelow pre) u ++ enumerateBelow pre us

end

variable {obj sub}

/-- Something is made of everything that is made of the items. -/
theorem enumerate_flatMap (f : β → List γ) {t : CollTree} : ∀ pre,
    (t.enumerate obj sub pre).flatMap f
      = t.enumerate (fun pre o => (obj pre o).flatMap f) (fun n c => (sub n c).flatMap f) pre := by
  induction t using CollTree.nestedInduction with
  | node c us ih =>
    intro pre
    rw [enumerate, enumerate, List.flatMap_append, List.flatMap_assoc]
    congr 1
    induction us with
    | nil => rfl
    | cons u us ihus =>
      rw [enumerateBelow, enumerateBelow, List.flatMap_append, List.flatMap_append,
        ih u List.mem_cons_self, ihus (fun u hu => ih u (List.mem_cons_of_mem _ hu))]

end Enumerate

/-- **The items of a tree**, one for each collection below the root and one for
each data object, each with its lists as the walk collects them. -/
def descendants (J : Jansson) : CollTree → List ArchiveCall :=
  enumerate
    (fun pre o => [o.callWith pre (listOf (attrEntry J) o.attributes)
      (listOf (aclEntry J) o.acl)])
    (fun name c => [c.call J name]) []

/-- The items of a tree, each with all its attributes and all its access control
entries. -/
def fullDescendants : CollTree → List ArchiveCall :=
  enumerate
    (fun pre o => [o.callWith pre (fullAttributes o.attributes) (fullAcl o.acl)])
    (fun name c => [.addColl name c.created c.modified c.owner c.zone
      (fullAttributes c.attributes) (fullAcl c.acl)]) []

/-- A property of every collection of a tree. -/
inductive All (P : Collection → Prop) : CollTree → Prop
  | node {c : Collection} {us : List CollTree} (here : P c) (below : ∀ u ∈ us, All P u) :
      All P (.node c us)

theorem All.of_forall {P : Collection → Prop} (h : ∀ c, P c) (t : CollTree) : t.All P := by
  induction t using CollTree.nestedInduction with
  | node c us ih => exact .node (h c) ih

/-- Good replicas agree. -/
def OneRowEach : CollTree → Prop := All (fun c => ∀ o ∈ c.objects, o.OneRow)

/-- All lists of the tree can be written. -/
def Encodable (J : Jansson) : CollTree → Prop :=
  All (fun c => ListsEncodable J c.attributes c.acl
    ∧ ∀ o ∈ c.objects, ListsEncodable J o.attributes o.acl)

/-- The names of collections are names: they have no slash, and two collections
in one collection have two names. -/
inductive Named : CollTree → Prop
  | node {c : Collection} {us : List CollTree}
      (nodup : (us.map (fun u => u.coll.name)).Nodup)
      (name : ∀ u ∈ us, '/' ∉ u.coll.name) (below : ∀ u ∈ us, Named u) :
      Named (.node c us)

theorem enumerate_congr {β : Type} {obj obj' : Text → DataObject → List β}
    {sub sub' : Text → Collection → List β} {P : Collection → Prop}
    (hobj : ∀ c, P c → ∀ pre, ∀ o ∈ c.objects, obj pre o = obj' pre o)
    (hsub : ∀ c, P c → ∀ name, sub name c = sub' name c) {t : CollTree} (h : t.All P) :
    ∀ pre, t.enumerate obj sub pre = t.enumerate obj' sub' pre := by
  induction t using CollTree.nestedInduction with
  | node c us ih =>
    intro pre
    cases h with
    | node here below =>
      rw [enumerate, enumerate, List.flatMap_congr (fun o ho => hobj c here pre o ho)]
      congr 1
      induction us with
      | nil => rfl
      | cons u us ihus =>
        have hu := below u List.mem_cons_self
        have hroot : P u.coll := by
          cases hu with
          | node here _ => exact here
        rw [enumerateBelow, enumerateBelow, hsub _ hroot, ih u List.mem_cons_self hu,
          ihus (fun u hu => ih u (List.mem_cons_of_mem _ hu))
            (fun u hu => below u (List.mem_cons_of_mem _ hu))]

/-- What holds of everything that is made of the items of a tree. -/
theorem enumerate_forall {β : Type} {obj : Text → DataObject → List β}
    {sub : Text → Collection → List β} {P : Collection → Prop} {R : β → Prop}
    (hobj : ∀ c, P c → ∀ pre, ∀ o ∈ c.objects, ∀ b ∈ obj pre o, R b)
    (hsub : ∀ c, P c → ∀ name, ∀ b ∈ sub name c, R b) {t : CollTree} (h : t.All P) :
    ∀ pre, ∀ b ∈ t.enumerate obj sub pre, R b := by
  induction t using CollTree.nestedInduction with
  | node c us ih =>
    intro pre b hb
    cases h with
    | node here below =>
      rw [enumerate] at hb
      rcases List.mem_append.mp hb with hb | hb
      · obtain ⟨o, ho, hb⟩ := List.mem_flatMap.mp hb
        exact hobj c here pre o ho b hb
      · clear ‹b ∈ _ ++ _›
        induction us with
        | nil => exact absurd hb List.not_mem_nil
        | cons u us ihus =>
          have hu := below u List.mem_cons_self
          rw [enumerateBelow] at hb
          rcases List.mem_append.mp hb with hb | hb
          · rcases List.mem_append.mp hb with hb | hb
            · cases hu with
              | node here _ => exact hsub _ here _ b hb
            · exact ih u List.mem_cons_self hu _ b hb
          · exact ihus (fun u hu => ih u (List.mem_cons_of_mem _ hu))
              (fun u hu => below u (List.mem_cons_of_mem _ hu)) hb

/-! ## The walk issues the items of the tree -/

/-- The calls for the data objects of a collection the catalog shows. -/
theorem objectCalls_perm {K : Catalog} {J : Jansson} {path : Text} {t : CollTree}
    (hs : t.Shows K path) (pre : Text) :
    (t.objectCalls K J pre).Perm (t.coll.objects.flatMap (DataObject.calls J pre)) := by
  cases hs with
  | @node _ c us _ dataObjs dataAttrs dataAcl _ _ _ =>
    refine (dataObjs.map _).trans (List.Perm.of_eq ?_)
    rw [List.map_flatMap]
    refine List.flatMap_congr (fun o ho => ?_)
    refine List.map_congr_left (fun r hr => ?_)
    have hid : r.id = o.id := by
      obtain ⟨_, -, rfl⟩ := List.mem_map.mp hr
      rfl
    unfold dataObjCall
    rw [hid, dataAttrs o ho, dataAcl o ho]

/-- **The walk issues the items of the tree**, a data object once for each of
its rows. -/
theorem calls_perm {K : Catalog} {J : Jansson} {t : CollTree} :
    ∀ {path : Text} (pre : Text), t.Shows K path →
      (t.contents K J pre ++ t.objectCalls K J pre).Perm
        (t.enumerate (DataObject.calls J) (fun name c => [c.call J name]) pre) := by
  induction t using CollTree.nestedInduction with
  | node c us ih =>
    intro path pre hs
    have hobj := objectCalls_perm (J := J) hs pre
    rw [contents, enumerate]
    refine List.perm_append_comm.trans (hobj.append ?_)
    cases hs with
    | node subColls _ _ _ _ _ below =>
      clear hobj subColls
      induction us with
      | nil => exact List.Perm.refl _
      | cons u us ihus =>
        have hu := ih u List.mem_cons_self (u.preBelow pre) (below u List.mem_cons_self)
        have hus := ihus (fun u hu => ih u (List.mem_cons_of_mem _ hu))
          (fun u hu => below u (List.mem_cons_of_mem _ hu))
        rw [List.map_cons, contentsBelow, enumerateBelow]
        refine List.Perm.cons _ ?_
        refine List.perm_append_comm_assoc .. |>.trans ?_
        exact hu.append hus

/-! ## No item comes before its collection -/

theorem prefix_preBelow (pre : Text) (u : CollTree) : pre <+: u.preBelow pre :=
  ⟨u.coll.name ++ "/".toList, (List.append_assoc ..).symm⟩

theorem prefix_of_mem_objectCalls {K : Catalog} {J : Jansson} {pre : Text} {t : CollTree}
    {a : ArchiveCall} (h : a ∈ t.objectCalls K J pre) : pre <+: a.name ∧ a.isColl = false := by
  obtain ⟨r, -, rfl⟩ := List.mem_map.mp h
  exact ⟨List.prefix_append _ _, rfl⟩

/-- What is inside some collections is inside one of them. -/
theorem mem_contentsBelow {K : Catalog} {J : Jansson} {pre : Text} {us : List CollTree}
    {a : ArchiveCall} (ha : a ∈ contentsBelow K J pre us) :
    ∃ u ∈ us, a ∈ contents K J (u.preBelow pre) u ++ objectCalls K J (u.preBelow pre) u := by
  induction us with
  | nil => exact absurd ha List.not_mem_nil
  | cons u us ih =>
    rw [contentsBelow] at ha
    rcases List.mem_append.mp ha with ha | ha
    · exact ⟨u, List.mem_cons_self, ha⟩
    · obtain ⟨v, hv, h⟩ := ih ha
      exact ⟨v, List.mem_cons_of_mem _ hv, h⟩

/-- What is inside a collection has the collection's name and a slash before its
own name. -/
theorem prefix_of_mem_contents {K : Catalog} {J : Jansson} {t : CollTree} :
    ∀ {pre : Text} {a : ArchiveCall},
      a ∈ t.contents K J pre ++ t.objectCalls K J pre → pre <+: a.name := by
  induction t using CollTree.nestedInduction with
  | node c us ih =>
    intro pre a ha
    rcases List.mem_append.mp ha with ha | ha
    · rw [contents] at ha
      rcases List.mem_append.mp ha with ha | ha
      · obtain ⟨u, -, rfl⟩ := List.mem_map.mp ha
        exact List.prefix_append _ _
      · obtain ⟨u, hu, ha⟩ := mem_contentsBelow ha
        exact (prefix_preBelow pre u).trans (ih u hu ha)
    · exact (prefix_of_mem_objectCalls ha).1

theorem prefix_of_mem_contentsBelow {K : Catalog} {J : Jansson} {pre : Text}
    {us : List CollTree} {a : ArchiveCall} (ha : a ∈ contentsBelow K J pre us) :
    ∃ u ∈ us, u.preBelow pre <+: a.name := by
  obtain ⟨u, hu, ha⟩ := mem_contentsBelow ha
  exact ⟨u, hu, prefix_of_mem_contents ha⟩

/-- **No item is added before a collection it is located in.** Items of two
collections of one level cannot be located in one another, and the level itself
is added before what is inside. -/
theorem contents_parents_first {K : Catalog} {J : Jansson} {t : CollTree} :
    ∀ (pre : Text), t.Named →
      (t.contents K J pre ++ t.objectCalls K J pre).Pairwise (fun a b => ¬ a.LocatedIn b) := by
  induction t using CollTree.nestedInduction with
  | node c us ih =>
    intro pre hn
    cases hn with
    | node nodup name below =>
      have hlevel : ∀ u ∈ us, ∀ (b : ArchiveCall), pre <+: b.name →
          ¬ (u.coll.call J (pre ++ u.coll.name)).LocatedIn b := by
        rintro u hu b ⟨y, hy⟩ ⟨-, hb⟩
        rw [← hy] at hb
        exact Text.not_prefix_name (name u hu) hb
      have hbelow : (contentsBelow K J pre us).Pairwise (fun a b => ¬ a.LocatedIn b) := by
        clear hlevel
        induction us with
        | nil => exact List.Pairwise.nil
        | cons u us ihus =>
          rw [List.map_cons, List.nodup_cons] at nodup
          rw [contentsBelow]
          refine List.pairwise_append.mpr ⟨ih u List.mem_cons_self _ (below u List.mem_cons_self),
            ihus (fun u hu => ih u (List.mem_cons_of_mem _ hu)) nodup.2
              (fun u hu => name u (List.mem_cons_of_mem _ hu))
              (fun u hu => below u (List.mem_cons_of_mem _ hu)), ?_⟩
          intro a ha b hb hloc
          have hpre : u.preBelow pre <+: a.name := prefix_of_mem_contents ha
          obtain ⟨v, hv, hpre'⟩ := prefix_of_mem_contentsBelow hb
          have hpre'' : v.preBelow pre <+: a.name :=
            hpre'.trans ((List.prefix_append _ _).trans hloc.2)
          refine nodup.1 (List.mem_map.mpr ⟨v, hv, ?_⟩)
          exact Text.name_eq_of_prefix (name v (List.mem_cons_of_mem _ hv))
            (name u List.mem_cons_self) hpre'' hpre
      rw [contents]
      refine List.pairwise_append.mpr ⟨List.pairwise_append.mpr ⟨?_, hbelow, ?_⟩, ?_, ?_⟩
      · refine List.pairwise_map.mpr (List.pairwise_of_forall_mem_list ?_)
        intro u hu v _
        exact hlevel u hu _ (List.prefix_append _ _)
      · rintro a ha b hb
        obtain ⟨u, hu, rfl⟩ := List.mem_map.mp ha
        obtain ⟨v, -, hv⟩ := prefix_of_mem_contentsBelow hb
        exact hlevel u hu b ((prefix_preBelow pre v).trans hv)
      · refine List.pairwise_of_forall_mem_list ?_
        intro a _ b hb hloc
        exact absurd hloc.1 (by simp [(prefix_of_mem_objectCalls hb).2])
      · intro a _ b hb hloc
        exact absurd hloc.1 (by simp [(prefix_of_mem_objectCalls hb).2])

end CollTree

/-! ## The walk as a whole -/

/-- **The walk issues every item of the tree once**, with all its attributes and
access control entries, no item before a collection it is located in, and always
in the same order: the sequence depends on the rows of the catalog and not on
how the server cuts them into pages. -/
theorem walk_order {K : Catalog} (J : Jansson) {coll : Text} {t : CollTree}
    (hs : t.Shows K coll) (hn : t.Named) (hrow : t.OneRowEach) :
    ∃ calls : List ArchiveCall, calls.Perm (t.descendants J)
      ∧ (t.Encodable J → calls.Perm t.fullDescendants)
      ∧ calls.Pairwise (fun a b => ¬ a.LocatedIn b)
      ∧ ∀ Q : GenQuery, Q.toCatalog = K → Q.Reliable → ∀ fuel, t.depth < fuel →
        ∃ w, Q.walk J fuel coll t.coll.id Walk.start = some w ∧ w.calls = calls := by
  have hone : t.enumerate (DataObject.calls J) (fun name c => [c.call J name]) []
      = t.descendants J := by
    refine CollTree.enumerate_congr (fun c hc pre o ho => ?_) (fun _ _ _ => rfl) hrow []
    rw [DataObject.calls, DataObject.rows_of_oneRow (hc o ho)]
    rfl
  have hperm : (t.calls K J).Perm (t.descendants J) :=
    hone ▸ CollTree.calls_perm [] hs
  refine ⟨t.calls K J, hperm, fun he => ?_, CollTree.contents_parents_first [] hn, ?_⟩
  · have hfull : t.descendants J = t.fullDescendants := by
      refine CollTree.enumerate_congr (fun c hc pre o ho => ?_) (fun c hc name => ?_) he []
      · rw [listOf_attrEntry (hc.2 o ho), listOf_aclEntry (hc.2 o ho)]
      · rw [Collection.call, listOf_attrEntry hc.1, listOf_aclEntry hc.1]
    exact hfull ▸ hperm
  · rintro Q rfl hQ fuel hfuel
    obtain ⟨w, hw⟩ := GenQuery.walk_total (J := J) hs hfuel Walk.start
    exact ⟨w, hw, by rw [GenQuery.walk_calls hs hw (hQ.fine w)]; rfl⟩

/-! ## A tree, and a catalog that shows it -/

namespace Sample

/-- A data object of five bytes with an attribute, and an access control list of
one entry. -/
def object : DataObject where
  name := "f".toList
  id := 3
  size := 5
  owner := "o".toList
  zone := "z".toList
  replicas := [⟨1, 2, []⟩]
  attributes := [⟨"k".toList, "v".toList, []⟩]
  acl := [⟨"o".toList, "z".toList, "own".toList⟩]
  good := List.cons_ne_nil _ _

/-- A collection with some data objects and neither attributes nor an access
control list. -/
def collection (name : Text) (id : ℤ) (objects : List DataObject) : Collection :=
  ⟨name, id, "o".toList, "z".toList, 1, 2, [], [], objects⟩

/-- A collection that holds a collection that holds a data object. -/
def tree (o : DataObject) : CollTree :=
  .node (collection "c".toList 1 []) [.node (collection "a".toList 2 [o]) []]

/-- The path of the outer collection. -/
def coll : Text := "/z/c".toList

/-- A catalog with the tree in it. -/
def catalog (o : DataObject) : Catalog where
  collIds cond := if cond = Catalog.nameCond coll then [1] else []
  subColls cond := if cond = Catalog.nameCond coll
    then [(collection "a".toList 2 [o]).row coll] else []
  dataObjs id := if id = 2 then o.rows else []
  dataAttrs _ := o.attributes
  collAttrs _ := []
  dataAcl _ := o.acl
  collAcl _ := []

theorem shows_tree (o : DataObject) : (tree o).Shows (catalog o) coll := by
  refine .node rfl (List.Perm.refl _) (List.forall_mem_nil _) (List.forall_mem_nil _) rfl rfl
    (List.forall_mem_singleton.mpr ?_)
  have hne : Catalog.nameCond (Text.join coll "a".toList) ≠ Catalog.nameCond coll := by decide
  have hnone : (catalog o).subColls (Catalog.nameCond (Text.join coll "a".toList)) = [] := by
    unfold catalog
    dsimp only
    rw [if_neg hne]
  exact .node hnone (List.Perm.of_eq (List.append_nil _).symm)
    (List.forall_mem_singleton.mpr rfl) (List.forall_mem_singleton.mpr rfl) rfl rfl
    (List.forall_mem_nil _)

end Sample

/-- The walk over the sample tree. -/
theorem walk_order_sample :
    ∃ calls : List ArchiveCall,
      calls.Perm ((Sample.tree Sample.object).descendants JsonText.codec)
      ∧ ((Sample.tree Sample.object).Encodable JsonText.codec →
        calls.Perm (Sample.tree Sample.object).fullDescendants)
      ∧ calls.Pairwise (fun a b => ¬ a.LocatedIn b)
      ∧ ∀ Q : GenQuery, Q.toCatalog = Sample.catalog Sample.object → Q.Reliable →
        ∀ fuel, (Sample.tree Sample.object).depth < fuel →
        ∃ w, Q.walk JsonText.codec fuel Sample.coll 1 Walk.start = some w ∧ w.calls = calls :=
  walk_order JsonText.codec (Sample.shows_tree Sample.object)
    (.node (by decide) (by decide)
      (List.forall_mem_singleton.mpr (.node List.nodup_nil (List.forall_mem_nil _)
        (List.forall_mem_nil _))))
    (.node (List.forall_mem_nil _) (List.forall_mem_singleton.mpr
      (.node (List.forall_mem_singleton.mpr rfl) (List.forall_mem_nil _))))
