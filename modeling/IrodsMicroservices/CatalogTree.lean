import IrodsMicroservices.CatalogWalk

/-!
# Collection trees

The part of the catalog the walk is about is a tree: collections in collections,
data objects in collections, and for each data object its good replicas, one at
least. Attributes and access control lists belong to the items. `Shows` says
that the catalog holds such a tree below a path – that each statement on one of
its nodes matches exactly the node's rows – and is how the assumption that
GenQuery returns all matching rows enters.

`walk_calls` is the result about the walk: where no request has failed, the
calls it has issued are the contents of the tree (`CollTree.calls`), whatever
the pages. `dirColl_total` says that it returns, whatever the server does, as
soon as there is fuel for the depth of the tree.
-/

open Catalog

/-- A good replica, with the columns of its own. -/
structure Replica where
  created : ℤ
  modified : ℤ
  checksum : Text
  deriving DecidableEq

/-- A data object with a good replica at least. -/
structure DataObject where
  name : Text
  id : ℤ
  size : ℤ
  owner : Text
  zone : Text
  replicas : List Replica
  attributes : List Avu
  acl : List AclRow
  /-- There is a good replica. -/
  good : replicas ≠ []

namespace DataObject

/-- The rows of a data object: the distinct tuples of the columns selected. -/
def rows (o : DataObject) : List DataRow :=
  o.replicas.dedup.map (fun r =>
    ⟨o.name, o.id, o.size, o.owner, o.zone, r.created, r.modified, r.checksum⟩)

/-- Its good replicas agree in the columns selected. -/
def OneRow (o : DataObject) : Prop := o.rows.length = 1

theorem rows_ne_nil (o : DataObject) : o.rows ≠ [] := by
  unfold rows
  rw [Ne, List.map_eq_nil_iff, List.dedup_eq_nil]
  exact o.good

/-- The calls for a data object, one for each row, under a name that starts with
`pre`. -/
def calls (J : Jansson) (pre : Text) (o : DataObject) : List ArchiveCall :=
  o.rows.map (fun r => .addDataObj (pre ++ r.name) (BitVec.ofInt 64 r.size) r.created
    r.modified r.owner r.zone r.checksum (listOf (attrEntry J) o.attributes)
    (listOf (aclEntry J) o.acl))

end DataObject

/-- A collection, with the data objects in it. -/
structure Collection where
  /-- Its name in its parent. -/
  name : Text
  id : ℤ
  owner : Text
  zone : Text
  created : ℤ
  modified : ℤ
  attributes : List Avu
  acl : List AclRow
  objects : List DataObject

namespace Collection

/-- The row of a collection below `path`. -/
def row (path : Text) (c : Collection) : CollRow :=
  ⟨Text.join path c.name, c.id, c.owner, c.zone, c.created, c.modified⟩

/-- The call for a collection. -/
def call (J : Jansson) (name : Text) (c : Collection) : ArchiveCall :=
  .addColl name c.created c.modified c.owner c.zone (listOf (attrEntry J) c.attributes)
    (listOf (aclEntry J) c.acl)

end Collection

/-- **A tree of collections.** -/
inductive CollTree
  | node (coll : Collection) (subs : List CollTree)

namespace CollTree

/-- The collection at the root. -/
def coll : CollTree → Collection
  | node c _ => c

/-- The trees of the collections in it. -/
def subs : CollTree → List CollTree
  | node _ us => us

/-- Induction on a tree, with the hypothesis for every collection in it. -/
@[elab_as_elim]
theorem nestedInduction {P : CollTree → Prop}
    (node : ∀ c us, (∀ u ∈ us, P u) → P (.node c us)) : ∀ t, P t :=
  @CollTree.rec P (fun us => ∀ u ∈ us, P u) node (List.forall_mem_nil _)
    (fun _ _ hu hus => List.forall_mem_cons.mpr ⟨hu, hus⟩)

mutual

/-- How deep collections are nested. -/
def depth : CollTree → ℕ
  | node _ us => depthBelow us

/-- The depth of the deepest of some collections, counting them. -/
def depthBelow : List CollTree → ℕ
  | [] => 0
  | u :: us => max (depth u + 1) (depthBelow us)

end

theorem depth_lt_of_mem {u : CollTree} {us : List CollTree} (h : u ∈ us) :
    depth u < depthBelow us := by
  induction us with
  | nil => exact absurd h List.not_mem_nil
  | cons v us ih =>
    rw [depthBelow]
    rcases List.mem_cons.mp h with rfl | h
    · exact lt_of_lt_of_le (Nat.lt_succ_self _) (le_max_left _ _)
    · exact lt_of_lt_of_le (ih h) (le_max_right _ _)

/-- The start of the names in a collection whose own name starts with `pre`. -/
def preBelow (pre : Text) (u : CollTree) : Text := pre ++ u.coll.name ++ "/".toList

/-- The calls for the data objects of a collection, in the order of the rows. -/
def objectCalls (K : Catalog) (J : Jansson) (pre : Text) (t : CollTree) :
    List ArchiveCall :=
  (K.dataObjs t.coll.id).map (K.dataObjCall J pre)

mutual

/-- The calls `dirColl` issues for a tree: the collections of the first level,
then what each of them holds. -/
def contents (K : Catalog) (J : Jansson) (pre : Text) : CollTree → List ArchiveCall
  | node _ us =>
    us.map (fun u => u.coll.call J (pre ++ u.coll.name)) ++ contentsBelow K J pre us

/-- The calls for what some collections hold. -/
def contentsBelow (K : Catalog) (J : Jansson) (pre : Text) :
    List CollTree → List ArchiveCall
  | [] => []
  | u :: us =>
    contents K J (u.preBelow pre) u ++ objectCalls K J (u.preBelow pre) u
      ++ contentsBelow K J pre us

end

/-- **The calls of the whole walk.** -/
def calls (K : Catalog) (J : Jansson) (t : CollTree) : List ArchiveCall :=
  contents K J [] t ++ objectCalls K J [] t

/-- **The catalog shows a tree below a path**: every statement on one of its
nodes matches the rows of the node and no others. The rows of the data objects
may come in any order. -/
inductive Shows (K : Catalog) : Text → CollTree → Prop
  | node {path : Text} {c : Collection} {us : List CollTree}
      (subColls : K.subColls (nameCond path) = us.map (fun u => u.coll.row path))
      (dataObjs : (K.dataObjs c.id).Perm (c.objects.flatMap DataObject.rows))
      (dataAttrs : ∀ o ∈ c.objects, K.dataAttrs o.id = o.attributes)
      (dataAcl : ∀ o ∈ c.objects, K.dataAcl o.id = o.acl)
      (collAttrs : K.collAttrs c.id = c.attributes)
      (collAcl : K.collAcl c.id = c.acl)
      (below : ∀ u ∈ us, Shows K (Text.join path u.coll.name) u) :
      Shows K path (.node c us)

/-- The catalog lists the collections of a tree, under whatever names. -/
inductive Listed (K : Catalog) : Text → CollTree → Prop
  | node {path : Text} {c : Collection} {us : List CollTree} (row : CollTree → CollRow)
      (subColls : K.subColls (nameCond path) = us.map row)
      (below : ∀ u ∈ us, Listed K (row u).name u) : Listed K path (.node c us)

theorem Shows.listed {K : Catalog} {path : Text} {t : CollTree} (hs : t.Shows K path) :
    t.Listed K path := by
  induction t using CollTree.nestedInduction generalizing path with
  | node c us ih =>
    cases hs with
    | node subColls _ _ _ _ _ below =>
      exact .node (fun u => u.coll.row path) subColls (fun u hu => ih u hu (below u hu))

end CollTree

namespace GenQuery

variable {Q : GenQuery} {J : Jansson}

/-- Working off a list of collections only adds requests, where the descent into
each of them does. -/
theorem foldlM_requests {coll : Text} {descend : Text → Walk → Option Walk}
    (hdescend : ∀ path w w', descend path w = some w' → w.requests ≤ w'.requests) :
    ∀ (dirs : List (Text × ℤ)) (w w' : Walk),
      dirs.foldlM (fun w dir => (descend dir.1 w).map
        (Q.dirDataObj J (dir.1.drop (coll.length + 1) ++ "/".toList) dir.2)) w = some w' →
      w.requests ≤ w'.requests := by
  intro dirs
  induction dirs with
  | nil => exact fun w w' h => le_of_eq (congrArg Walk.requests (Option.some.inj h))
  | cons dir dirs ih =>
    intro w w' h
    rw [List.foldlM_cons] at h
    obtain ⟨x, hx, h⟩ := Option.bind_eq_some_iff.mp h
    obtain ⟨y, hy, rfl⟩ := Option.map_eq_some_iff.mp hx
    exact ((hdescend _ _ _ hy).trans (dirDataObj_requests _ _ _)).trans (ih _ _ h)

/-- `dirColl` only adds requests. -/
theorem dirColl_requests (coll : Text) :
    ∀ (fuel : ℕ) (path : Text) (w w' : Walk), Q.dirColl J coll fuel path w = some w' →
      w.requests ≤ w'.requests := by
  intro fuel
  induction fuel with
  | zero => exact fun _ _ _ h => absurd h (by simp [dirColl])
  | succ fuel ih =>
    intro path w w' h
    unfold dirColl at h
    exact (prefix_listColl (Q := Q) (J := J) coll path w).1.trans
      (foldlM_requests ih _ _ _ h)

/-- **`dirColl` returns**, whatever the server does, with fuel for the depth of
the tree: it descends into collections the catalog shows, and into no others. -/
theorem dirColl_total_of_listed (coll : Text) {path : Text} {t : CollTree}
    (hs : t.Listed Q.toCatalog path) {fuel : ℕ} (hfuel : t.depth < fuel) (w : Walk) :
    ∃ w', Q.dirColl J coll fuel path w = some w' := by
  induction t using CollTree.nestedInduction generalizing path fuel w with
  | node c us ih =>
    cases hs with
    | node row subColls below =>
      obtain ⟨fuel, rfl⟩ := Nat.exists_eq_succ_of_ne_zero (Nat.ne_zero_of_lt hfuel)
      obtain ⟨-, p, hp, hdirs⟩ := prefix_listColl (J := J) coll path w
      unfold dirColl
      dsimp only
      rw [hdirs]
      generalize (Q.listColl J coll path w).1 = v
      have hmem : ∀ r ∈ p, ∃ u ∈ us, row u = r := fun r hr =>
        List.mem_map.mp (subColls ▸ hp.subset hr)
      clear hp hdirs
      induction p generalizing v with
      | nil => exact ⟨v, rfl⟩
      | cons r p ihp =>
        obtain ⟨u, hu, rfl⟩ := hmem r List.mem_cons_self
        have hdepth : u.depth < fuel :=
          lt_of_lt_of_le (CollTree.depth_lt_of_mem hu) (Nat.le_of_lt_succ hfuel)
        obtain ⟨x, hx⟩ := ih u hu (below u hu) hdepth v
        obtain ⟨y, hy⟩ := ihp
          (Q.dirDataObj J ((row u).name.drop (coll.length + 1) ++ "/".toList) (row u).id x)
          (fun r hr => hmem r (List.mem_cons_of_mem _ hr))
        refine ⟨y, ?_⟩
        rw [List.map_cons, List.foldlM_cons]
        refine Option.bind_eq_some_iff.mpr ⟨_, ?_, hy⟩
        exact Option.map_eq_some_iff.mpr ⟨x, hx, rfl⟩

/-- The same for a tree the catalog shows. -/
theorem dirColl_total (coll : Text) {path : Text} {t : CollTree}
    (hs : t.Shows Q.toCatalog path) {fuel : ℕ} (hfuel : t.depth < fuel) (w : Walk) :
    ∃ w', Q.dirColl J coll fuel path w = some w' :=
  dirColl_total_of_listed coll hs.listed hfuel w

/-- The name a collection below `path` is added under, where the names in `path`
start with `pre`. -/
theorem drop_join_of_pre {coll path pre : Text} (h : path ++ ['/'] = Text.join coll pre)
    (name : Text) : (Text.join path name).drop (coll.length + 1) = pre ++ name := by
  have hjoin : Text.join path name = Text.join coll (pre ++ name) := by
    calc Text.join path name = path ++ ['/'] ++ name := by simp [Text.join]
      _ = Text.join coll pre ++ name := by rw [h]
      _ = Text.join coll (pre ++ name) := by simp [Text.join]
  rw [hjoin, Text.drop_join]

/-- The names in a collection below `path`. -/
theorem pre_join {coll path pre : Text} (h : path ++ ['/'] = Text.join coll pre)
    (u : CollTree) :
    Text.join path u.coll.name ++ ['/'] = Text.join coll (u.preBelow pre) := by
  calc Text.join path u.coll.name ++ ['/']
      = path ++ ['/'] ++ (u.coll.name ++ ['/']) := by simp [Text.join]
    _ = Text.join coll pre ++ (u.coll.name ++ ['/']) := by rw [h]
    _ = Text.join coll (u.preBelow pre) := by simp [Text.join, CollTree.preBelow]

/-- The call `dirColl` issues for a collection the catalog shows. -/
theorem collCall_row {coll path pre : Text} (h : path ++ ['/'] = Text.join coll pre)
    {u : CollTree} (hs : u.Shows Q.toCatalog (Text.join path u.coll.name)) :
    Q.collCall J coll (u.coll.row path) = u.coll.call J (pre ++ u.coll.name) := by
  cases hs with
  | node _ _ _ _ collAttrs collAcl _ =>
    unfold collCall Collection.row Collection.call
    dsimp only [CollTree.coll]
    rw [drop_join_of_pre h, collAttrs, collAcl]

/-- **What `dirColl` adds for a tree**, where no request has failed. The
induction is on the tree; below it, on the worklist, which lists the collections
of the first level in their order. -/
theorem dirColl_calls (coll : Text) {t : CollTree} :
    ∀ {path pre : Text} {fuel : ℕ} {w w' : Walk}, path ++ ['/'] = Text.join coll pre →
      t.Shows Q.toCatalog path → Q.dirColl J coll fuel path w = some w' → Q.Fine w' →
      w'.calls = w.calls ++ t.contents Q.toCatalog J pre := by
  induction t using CollTree.nestedInduction with
  | node c us ih =>
    intro path pre fuel w w' hpre hs h hf
    cases fuel with
    | zero => exact absurd h (by simp [dirColl])
    | succ fuel =>
      cases hs with
      | node subColls _ _ _ _ _ below =>
        unfold dirColl at h
        dsimp only at h
        -- descending into the worklist keeps what has been issued and adds what is inside
        have hrun : ∀ (vs : List CollTree) (v : Walk), (∀ u ∈ vs, u ∈ us) →
            (((vs.map (fun u => u.coll.row path)).map dirOf).foldlM (fun w dir =>
              (Q.dirColl J coll fuel dir.1 w).map
                (Q.dirDataObj J (dir.1.drop (coll.length + 1) ++ "/".toList) dir.2)) v)
              = some w' →
            Q.Fine v
              ∧ w'.calls = v.calls ++ CollTree.contentsBelow Q.toCatalog J pre vs := by
          intro vs
          induction vs with
          | nil =>
            intro v _ hv
            have hv' : v = w' := Option.some.inj hv
            exact ⟨hv' ▸ hf, by rw [hv', CollTree.contentsBelow, List.append_nil]⟩
          | cons u vs ihv =>
            intro v hsub hv
            rw [List.map_cons, List.map_cons, List.foldlM_cons] at hv
            obtain ⟨x, hx, hv⟩ := Option.bind_eq_some_iff.mp hv
            obtain ⟨y, hy, rfl⟩ := Option.map_eq_some_iff.mp hx
            obtain ⟨hfine, hcalls⟩ := ihv _ (fun u hu => hsub u (List.mem_cons_of_mem _ hu)) hv
            have hu : u ∈ us := hsub u List.mem_cons_self
            have hfy : Q.Fine y := fine_of_le (dirDataObj_requests _ _ _) hfine
            have hy' := ih u hu (pre_join hpre u) (below u hu) hy hfy
            have hpreu : (dirOf (u.coll.row path)).1.drop (coll.length + 1) ++ "/".toList
                = u.preBelow pre := by
              show (Text.join path u.coll.name).drop _ ++ _ = _
              rw [drop_join_of_pre hpre]
              rfl
            refine ⟨fine_of_le (dirColl_requests _ _ _ _ _ hy) hfy, ?_⟩
            rw [hcalls, dirDataObj_calls _ _ _ hfine, hpreu, hy', CollTree.contentsBelow]
            simp only [List.append_assoc]
            rfl
        have hstart : Q.Fine (Q.listColl J coll path w).1 :=
          fine_of_le (foldlM_requests (dirColl_requests coll fuel) _ _ _ h) hf
        obtain ⟨hcalls, hdirs⟩ := listColl_complete coll path w hstart
        rw [hdirs, subColls] at h
        obtain ⟨-, hrest⟩ := hrun us _ (fun _ hu => hu) h
        have hlevel : (Q.subColls (nameCond path)).map (Q.collCall J coll)
            = us.map (fun u => u.coll.call J (pre ++ u.coll.name)) := by
          rw [subColls, List.map_map]
          exact List.map_congr_left (fun u hu => collCall_row hpre (below u hu))
        rw [hrest, hcalls, hlevel, CollTree.contents, List.append_assoc]

/-- **The walk returns**, whatever the server does, with fuel for the depth of
the tree. -/
theorem walk_total {coll : Text} {t : CollTree} (hs : t.Shows Q.toCatalog coll)
    {fuel : ℕ} (hfuel : t.depth < fuel) (w : Walk) :
    ∃ w', Q.walk J fuel coll t.coll.id w = some w' := by
  obtain ⟨v, hv⟩ := dirColl_total (J := J) coll hs hfuel w
  exact ⟨_, by rw [walk, hv, Option.map_some]⟩

/-- **What the walk issues for a tree**, where no request has failed, whatever
the pages. -/
theorem walk_calls {coll : Text} {t : CollTree} (hs : t.Shows Q.toCatalog coll)
    {fuel : ℕ} {w w' : Walk} (h : Q.walk J fuel coll t.coll.id w = some w')
    (hf : Q.Fine w') : w'.calls = w.calls ++ t.calls Q.toCatalog J := by
  obtain ⟨v, hv, rfl⟩ := Option.map_eq_some_iff.mp h
  have hfine : Q.Fine v := fine_of_le (dirDataObj_requests _ _ _) hf
  rw [dirDataObj_calls _ _ _ hf, dirColl_calls coll rfl hs hv hfine, List.append_assoc]
  rfl

end GenQuery
