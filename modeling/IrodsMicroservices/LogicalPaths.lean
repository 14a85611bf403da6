import IrodsMicroservices.CatalogTree

/-!
# Logical paths and relative names

An item of an archive is named by its path without that of the archived collection, and
whoever needs the path again joins the two with a slash. `dirColl` cuts the names out by
counting: the length of the collection, and one for the slash. This module says what comes
of that for the logical paths of a catalog, where the root is a path that ends with its
slash (`Text.child`).

`walk_visits` is the result about the walk: whatever the server does, the calls it issues
are for items of the tree in their order, under the names the code computes. And these names
lead back to their items (`WalkItem.leads_back_iff`) for every collection but the root.
-/

open Catalog

namespace Text

/-- The logical path of what is called `name` in a collection. -/
def child (dir name : Text) : Text := if dir = ['/'] then '/' :: name else join dir name

theorem child_of_ne_root {dir : Text} (h : dir ≠ ['/']) (name : Text) :
    child dir name = join dir name := if_neg h

theorem length_lt_child (dir : Text) {name : Text} (hname : name ≠ []) :
    dir.length < (child dir name).length := by
  have hpos : 0 < name.length := List.length_pos_iff.mpr hname
  unfold child
  split
  · rename_i hroot
    rw [hroot]
    exact Nat.succ_lt_succ hpos
  · rw [length_join]
    omega

/-- Only the root is the root. -/
theorem child_ne_root (dir : Text) {name : Text} (hname : name ≠ []) : child dir name ≠ ['/'] := by
  have hpos : 0 < name.length := List.length_pos_iff.mpr hname
  intro h
  unfold child at h
  split at h
  · exact hname (List.cons.inj h).2
  · have hlength := congrArg List.length h
    rw [length_join, List.length_singleton] at hlength
    omega

/-- A path below a path is a path below the collection. -/
theorem child_child (dir : Text) {x : Text} (hx : x ≠ []) (y : Text) :
    child (child dir x) y = child dir (join x y) := by
  rw [child_of_ne_root (child_ne_root dir hx)]
  unfold child
  split
  · rfl
  · exact join_join dir x y

/-- **A relative path**: something, and no slash in front. -/
def Relative (x : Text) : Prop := x ≠ [] ∧ x.head? ≠ some '/'

theorem Relative.of_name {name : Text} (hname : name ≠ []) (hslash : '/' ∉ name) :
    Relative name :=
  ⟨hname, fun h => hslash (List.mem_of_head? h)⟩

theorem Relative.join {x : Text} (hx : x.Relative) (y : Text) : (Text.join x y).Relative := by
  obtain ⟨hne, hhead⟩ := hx
  refine ⟨List.append_ne_nil_of_left_ne_nil hne _, ?_⟩
  rw [Text.join, List.head?_append_of_ne_nil _ hne]
  exact hhead

/-- The path is below the collection. -/
def Below (coll path : Text) : Prop := ∃ x, x.Relative ∧ path = child coll x

theorem Below.child {coll path name : Text} (h : path = coll ∨ Below coll path)
    (hname : name ≠ []) (hslash : '/' ∉ name) : Below coll (Text.child path name) := by
  rcases h with rfl | ⟨x, hx, rfl⟩
  · exact ⟨name, .of_name hname hslash, rfl⟩
  · exact ⟨Text.join x name, hx.join name, child_child coll hx.1 name⟩

theorem Below.ne {coll path : Text} (h : Below coll path) : path ≠ coll := by
  obtain ⟨x, hx, rfl⟩ := h
  exact fun hc => absurd (congrArg List.length hc) (Nat.ne_of_gt (length_lt_child coll hx.1))

/-- **Cutting by counting**: what is cut from a path below a collection leads back to it,
unless the collection is the root. -/
theorem join_drop_iff {coll x : Text} (hx : x.Relative) :
    join coll ((child coll x).drop (coll.length + 1)) = child coll x ↔ coll ≠ ['/'] := by
  constructor
  · rintro h rfl
    -- the root has no slash of its own, and so the first letter of the name is cut
    have hsecond : '/' :: x.drop 1 = x := (List.cons.inj h).2
    exact hx.2 (hsecond ▸ rfl)
  · intro hroot
    rw [child_of_ne_root hroot, drop_join]

end Text

/-! ## What a walk comes to -/

/-- **What a walk comes to**: a collection, or a data object in a collection. -/
inductive WalkItem
  | coll (r : CollRow)
  | obj (dir : Text) (r : DataRow)

namespace WalkItem

/-- The logical path of the item. -/
def path : WalkItem → Text
  | coll r => r.name
  | obj dir r => Text.child dir r.name

/-- Whether it is a data object. -/
def isObj : WalkItem → Bool
  | coll _ => false
  | obj _ _ => true

/-- The call for the item, with a name and lists as given. -/
def call (name : Text) (attributes acl : Option Json) : WalkItem → ArchiveCall
  | coll r => .addColl name r.created r.modified r.owner r.zone attributes acl
  | obj _ r => .addDataObj name (BitVec.ofInt 64 r.size) r.created r.modified r.owner r.zone
      r.checksum attributes acl

/-- What `dirDataObj` is given to put before the names in a collection. -/
def namesStart (coll dir : Text) : Text :=
  if dir = coll then [] else dir.drop (coll.length + 1) ++ "/".toList

/-- The name the code computes for the item. -/
def relativeName (coll : Text) : WalkItem → Text
  | .coll r => r.name.drop (coll.length + 1)
  | .obj dir r => namesStart coll dir ++ r.name

@[simp] theorem name_call (i : WalkItem) (name : Text) (attributes acl : Option Json) :
    (i.call name attributes acl).name = name := by
  cases i <;> rfl

@[simp] theorem isColl_call (i : WalkItem) (name : Text) (attributes acl : Option Json) :
    (i.call name attributes acl).isColl = !i.isObj := by
  cases i <;> rfl

/-- A call is for the item. -/
def IsCalled (i : WalkItem) (c : ArchiveCall) : Prop :=
  ∃ attributes acl, c = i.call c.name attributes acl

/-- A call is for the item, under the name the code computes. -/
def IssuedAs (coll : Text) (i : WalkItem) (c : ArchiveCall) : Prop :=
  ∃ attributes acl, c = i.call (i.relativeName coll) attributes acl

theorem IssuedAs.isCalled {coll : Text} {i : WalkItem} {c : ArchiveCall} (h : i.IssuedAs coll c) :
    i.IsCalled c ∧ c.name = i.relativeName coll := by
  obtain ⟨attributes, acl, rfl⟩ := h
  exact ⟨⟨attributes, acl, by rw [name_call]⟩, name_call ..⟩

/-- The item is below the collection. -/
def Located (coll : Text) : WalkItem → Prop
  | .coll r => Text.Below coll r.name
  | .obj dir _ => dir = coll ∨ Text.Below coll dir

/-- **A name leads back to its item** exactly where the archived collection is not the
root. -/
theorem leads_back_iff {coll : Text} {i : WalkItem} (h : i.Located coll) :
    Text.join coll (i.relativeName coll) = i.path ↔ coll ≠ ['/'] := by
  cases i with
  | coll r =>
    obtain ⟨x, hx, hname⟩ := h
    show Text.join coll (r.name.drop (coll.length + 1)) = r.name ↔ _
    rw [hname]
    exact Text.join_drop_iff hx
  | obj dir r =>
    rcases h with rfl | ⟨x, hx, rfl⟩
    · show Text.join dir (namesStart dir dir ++ r.name) = Text.child dir r.name ↔ _
      rw [namesStart, if_pos rfl, List.nil_append]
      constructor
      · rintro h rfl
        have hlonger : '/' :: r.name = r.name := (List.cons.inj h).2
        exact List.cons_ne_self _ _ hlonger
      · exact fun hroot => (Text.child_of_ne_root hroot _).symm
    · have hne : Text.child coll x ≠ coll := Text.Below.ne ⟨x, hx, rfl⟩
      show Text.join coll (namesStart coll (Text.child coll x) ++ r.name)
        = Text.child (Text.child coll x) r.name ↔ _
      have hcut : namesStart coll (Text.child coll x) ++ r.name
          = (Text.child coll (Text.join x r.name)).drop (coll.length + 1) := by
        rw [namesStart, if_neg hne, ← Text.child_child coll hx.1,
          Text.child_of_ne_root (Text.child_ne_root coll hx.1), Text.join,
          List.drop_append_of_le_length (Text.length_lt_child coll hx.1), List.append_assoc]
        rfl
      rw [hcut, Text.child_child coll hx.1]
      exact Text.join_drop_iff (hx.join r.name)

end WalkItem

namespace Collection

/-- The row of a collection below the logical path `path`. -/
def childRow (path : Text) (c : Collection) : CollRow :=
  { c.row path with name := Text.child path c.name }

end Collection

namespace CollTree

/-- **The catalog shows a tree below a logical path**, with any items in it, and any rows for
the data objects. A name is not empty and has no slash in it, and the path of a data object
is no longer than paths can be. -/
inductive Stands (K : Catalog) : Text → CollTree → Prop
  | node {path : Text} {c : Collection} {us : List CollTree}
      (subColls : K.subColls (nameCond path) = us.map (fun u => u.coll.childRow path))
      (names : ∀ u ∈ us, u.coll.name ≠ [] ∧ '/' ∉ u.coll.name)
      (fits : ∀ r ∈ K.dataObjs c.id, (Text.child path r.name).length < Text.maxNameLen)
      (below : ∀ u ∈ us, Stands K (Text.child path u.coll.name) u) : Stands K path (.node c us)

theorem Stands.listed {K : Catalog} {path : Text} {t : CollTree} (hs : t.Stands K path) :
    t.Listed K path := by
  induction t using CollTree.nestedInduction generalizing path with
  | node c us ih =>
    cases hs with
    | node subColls _ _ below =>
      exact .node (fun u => u.coll.childRow path) subColls (fun u hu => ih u hu (below u hu))

/-- The data objects in a collection. -/
def objectItems (K : Catalog) (dir : Text) (t : CollTree) : List WalkItem :=
  (K.dataObjs t.coll.id).map (WalkItem.obj dir)

mutual

/-- What `dirColl` comes to for a tree: the collections of the first level, then what each of
them holds. -/
def itemsBelow (K : Catalog) (path : Text) : CollTree → List WalkItem
  | node _ us => us.map (fun u => .coll (u.coll.childRow path)) ++ itemsInside K path us

/-- What some collections hold. -/
def itemsInside (K : Catalog) (path : Text) : List CollTree → List WalkItem
  | [] => []
  | u :: us =>
    itemsBelow K (Text.child path u.coll.name) u
      ++ objectItems K (Text.child path u.coll.name) u ++ itemsInside K path us

end

/-- **Everything below a collection.** -/
def items (K : Catalog) (coll : Text) (t : CollTree) : List WalkItem :=
  itemsBelow K coll t ++ objectItems K coll t

/-- What is inside some collections is inside each of them. -/
theorem mem_itemsInside {K : Catalog} {path : Text} {i : WalkItem} {us : List CollTree} :
    i ∈ itemsInside K path us ↔ ∃ u ∈ us,
      i ∈ itemsBelow K (Text.child path u.coll.name) u
        ∨ i ∈ objectItems K (Text.child path u.coll.name) u := by
  induction us with
  | nil => exact iff_of_false List.not_mem_nil (fun ⟨_, hu, _⟩ => List.not_mem_nil hu)
  | cons u us ih =>
    rw [itemsInside, List.mem_append, List.mem_append, ih]
    simp only [List.mem_cons, exists_eq_or_imp]

/-- The data objects of a collection below `coll` are below it, and their paths fit. -/
theorem located_objectItems {K : Catalog} {coll path : Text} {t : CollTree}
    (hpath : path = coll ∨ Text.Below coll path) (hs : t.Stands K path) :
    ∀ i ∈ t.objectItems K path, i.Located coll ∧ i.path.length < Text.maxNameLen := by
  intro i hi
  obtain ⟨r, hr, rfl⟩ := List.mem_map.mp hi
  cases hs with
  | node _ _ fits _ => exact ⟨hpath, fits r hr⟩

/-- **Every item is below the collection**, and the paths of the data objects fit. -/
theorem located_itemsBelow {K : Catalog} {coll : Text} {t : CollTree} :
    ∀ {path : Text}, path = coll ∨ Text.Below coll path → t.Stands K path →
      ∀ i ∈ t.itemsBelow K path,
        i.Located coll ∧ (i.isObj = true → i.path.length < Text.maxNameLen) := by
  induction t using CollTree.nestedInduction with
  | node c us ih =>
    intro path hpath hs i hi
    cases hs with
    | node subColls names fits below =>
      have hchild : ∀ u ∈ us, Text.Below coll (Text.child path u.coll.name) := fun u hu =>
        .child hpath (names u hu).1 (names u hu).2
      rw [itemsBelow, List.mem_append, mem_itemsInside] at hi
      rcases hi with hi | ⟨u, hu, hi | hi⟩
      · obtain ⟨u, hu, rfl⟩ := List.mem_map.mp hi
        exact ⟨hchild u hu, fun h => nomatch h⟩
      · exact ih u hu (.inr (hchild u hu)) (below u hu) i hi
      · obtain ⟨hlocated, hfits⟩ := located_objectItems (.inr (hchild u hu)) (below u hu) i hi
        exact ⟨hlocated, fun _ => hfits⟩

theorem located_items {K : Catalog} {coll : Text} {t : CollTree} (hs : t.Stands K coll) :
    ∀ i ∈ t.items K coll,
      i.Located coll ∧ (i.isObj = true → i.path.length < Text.maxNameLen) := by
  intro i hi
  rcases List.mem_append.mp hi with hi | hi
  · exact located_itemsBelow (.inl rfl) hs i hi
  · obtain ⟨hlocated, hfits⟩ := located_objectItems (.inl rfl) hs i hi
    exact ⟨hlocated, fun _ => hfits⟩

end CollTree

/-! ## The calls of a walk -/

namespace GenQuery

variable {Q : GenQuery} {J : Jansson} {coll : Text}

/-- **The calls issued on the way are for items of a list**, in their order and under the
names the code computes, and for all of them where no request has failed. -/
structure Visits (Q : GenQuery) (coll : Text) (items : List WalkItem) (w w' : Walk) : Prop where
  /-- No request is forgotten. -/
  requests : w.requests ≤ w'.requests
  /-- The items come to, and the calls for them. -/
  visited : ∃ visited calls, visited.Sublist items ∧ w'.calls = w.calls ++ calls
    ∧ List.Forall₂ (WalkItem.IssuedAs coll) visited calls ∧ (Q.Fine w' → visited = items)

theorem Visits.refl (w : Walk) : Visits Q coll [] w w :=
  ⟨le_rfl, [], [], .slnil, (List.append_nil _).symm, .nil, fun _ => rfl⟩

theorem Visits.trans {items items' : List WalkItem} {w v w' : Walk}
    (h : Visits Q coll items w v) (h' : Visits Q coll items' v w') :
    Visits Q coll (items ++ items') w w' := by
  obtain ⟨hrequests, visited, calls, hsub, hcalls, hissued, hall⟩ := h
  obtain ⟨hrequests', visited', calls', hsub', hcalls', hissued', hall'⟩ := h'
  refine ⟨hrequests.trans hrequests', visited ++ visited', calls ++ calls', hsub.append hsub',
    ?_, List.rel_append hissued hissued', fun hf => ?_⟩
  · rw [hcalls', hcalls, List.append_assoc]
  · rw [hall (fine_of_le hrequests' hf), hall' hf]

/-- The same calls are for a longer list, as long as a request has failed. -/
theorem Visits.mono {items items' : List WalkItem} {w w' : Walk} (h : Visits Q coll items w w')
    (hsub : items.Sublist items') (hall : Q.Fine w' → items = items') :
    Visits Q coll items' w w' := by
  obtain ⟨hrequests, visited, calls, hvisited, hcalls, hissued, hfine⟩ := h
  exact ⟨hrequests, visited, calls, hvisited.trans hsub, hcalls, hissued,
    fun hf => (hfine hf).trans (hall hf)⟩

/-- What has been visited and one more. -/
theorem Visits.snoc {items : List WalkItem} {w v w' : Walk} {i : WalkItem} {c : ArchiveCall}
    (h : Visits Q coll items w v) (hrequests : v.requests ≤ w'.requests)
    (hcalls : w'.calls = v.calls ++ [c]) (hc : i.IssuedAs coll c) :
    Visits Q coll (items ++ [i]) w w' :=
  h.trans ⟨hrequests, [i], [c], .refl _, hcalls, .cons hc .nil, fun _ => rfl⟩

/-- Requests that issue no call. -/
theorem Visits.asked {items : List WalkItem} {w v w' : Walk} (h : Visits Q coll items w v)
    (hrequests : v.requests ≤ w'.requests) (hcalls : w'.calls = v.calls) :
    Visits Q coll items w w' := by
  have hnone : Visits Q coll [] v w' :=
    ⟨hrequests, [], [], .slnil, by rw [hcalls, List.append_nil], .nil, fun _ => rfl⟩
  have hboth := h.trans hnone
  rwa [List.append_nil] at hboth

/-- A data object's row issues one call for it. -/
theorem dataObjRow_issues (dir : Text) (v : Walk) (r : DataRow) :
    ∃ c, (Q.dataObjRow J (WalkItem.namesStart coll dir) v r).calls = v.calls ++ [c]
      ∧ (WalkItem.obj dir r).IssuedAs coll c := by
  refine ⟨_, ?_, (Q.attrDataObj J r.id v).1,
    (Q.aclDataObj J r.id (Q.attrDataObj J r.id v).2).1, rfl⟩
  unfold dataObjRow
  rw [Walk.calls_emit, aclDataObj, (collectList_frame _ _ _).1, attrDataObj,
    (collectList_frame _ _ _).1]
  rfl

/-- **`dirDataObj` visits the data objects of its collection.** -/
theorem dirDataObj_visits (dir : Text) (collId : ℤ) (w : Walk) :
    Visits Q coll ((Q.dataObjs collId).map (WalkItem.obj dir)) w
      (Q.dirDataObj J (WalkItem.namesStart coll dir) collId w) := by
  obtain ⟨p, hp, hall, hvisits⟩ := readPages_rule Q.server
    (Q.dataObjRow J (WalkItem.namesStart coll dir))
    (fun p v => Visits Q coll (p.map (WalkItem.obj dir)) w v) Q.guards_fine
    (fun v r => fine_of_le (dataObjRow_requests _ v r))
    (fun p v a b h => h.asked (Nat.le_succ _) rfl)
    (fun p r v h => by
      obtain ⟨c, hcalls, hc⟩ := dataObjRow_issues (J := J) dir v r
      rw [List.map_append]
      exact h.snoc (dataObjRow_requests _ v r) hcalls hc)
    (.refl w)
  exact Visits.mono hvisits (hp.sublist.map _) (fun hf => congrArg _ (hall hf))

/-- A collection's row issues one call for it. -/
theorem collRow_issues (s : Walk × List (Text × ℤ)) (r : CollRow) :
    ∃ c, (Q.collRow J coll s r).1.calls = s.1.calls ++ [c]
      ∧ (WalkItem.coll r).IssuedAs coll c := by
  refine ⟨_, ?_, (Q.attrColl J r.id s.1).1,
    (Q.aclColl J r.id (Q.attrColl J r.id s.1).2).1, rfl⟩
  unfold collRow
  rw [Walk.calls_emit, aclColl, (collectList_frame _ _ _).1, attrColl,
    (collectList_frame _ _ _).1]
  rfl

/-- **The query loop of `dirColl` visits the collections it puts on its worklist.** -/
theorem listColl_visits (path : Text) (w : Walk) :
    ∃ p, p <+: Q.subColls (Catalog.nameCond path)
      ∧ (Q.Fine (Q.listColl J coll path w).1 → p = Q.subColls (Catalog.nameCond path))
      ∧ (Q.listColl J coll path w).2 = p.map dirOf
      ∧ Visits Q coll (p.map WalkItem.coll) w (Q.listColl J coll path w).1 := by
  obtain ⟨p, hp, hall, hdirs, hvisits⟩ := readPages_rule (Q.server.withLocal (List (Text × ℤ)))
    (Q.collRow J coll)
    (fun p s => s.2 = p.map dirOf ∧ Visits Q coll (p.map WalkItem.coll) w s.1)
    (Q.guards_fine.withLocal _) (fun s r => fine_of_le (collRow_requests coll s r))
    (fun p s a b h => ⟨h.1, h.2.asked (Nat.le_succ _) rfl⟩)
    (fun p r s h => by
      obtain ⟨c, hcalls, hc⟩ : ∃ c, (Q.collRow J coll s r).1.calls = s.1.calls ++ [c]
          ∧ (WalkItem.coll r).IssuedAs coll c := collRow_issues s r
      rw [List.map_append, List.map_append]
      exact ⟨congrArg (· ++ [dirOf r]) h.1, h.2.snoc (collRow_requests coll s r) hcalls hc⟩)
    (s := (w, [])) ⟨rfl, .refl w⟩
  exact ⟨p, hp, hall, hdirs, hvisits⟩

/-- A prefix of a list that is made of another one is made of a prefix of that. -/
theorem exists_prefix_of_map {α β : Type} {f : α → β} {us : List α} {p : List β}
    (h : p <+: us.map f) : ∃ vs, vs <+: us ∧ p = vs.map f := by
  refine ⟨us.take p.length, List.take_prefix _ _, ?_⟩
  rw [List.map_take]
  exact List.prefix_iff_eq_take.mp h

/-- What is inside the first of some collections comes first. -/
theorem itemsInside_sublist {K : Catalog} {path : Text} {vs us : List CollTree}
    (h : vs <+: us) :
    (CollTree.itemsInside K path vs).Sublist (CollTree.itemsInside K path us) := by
  obtain ⟨rest, rfl⟩ := h
  induction vs with
  | nil => exact List.nil_sublist _
  | cons v vs ih => exact (List.Sublist.refl _).append ih

/-- **What `dirColl` visits for a tree.** The induction is on the tree; below it, on the
worklist, which is the collections of the first level as far as they have been seen. -/
theorem dirColl_visits {t : CollTree} :
    ∀ {path : Text} {fuel : ℕ} {w w' : Walk}, path = coll ∨ Text.Below coll path →
      t.Stands Q.toCatalog path → Q.dirColl J coll fuel path w = some w' →
      Visits Q coll (t.itemsBelow Q.toCatalog path) w w' := by
  induction t using CollTree.nestedInduction with
  | node c us ih =>
    intro path fuel w w' hpath hs h
    cases fuel with
    | zero => exact nomatch h
    | succ fuel =>
      cases hs with
      | node subColls names fits below =>
        -- descending into the worklist visits what is inside each collection
        have hrun : ∀ (vs : List CollTree) (v w' : Walk), (∀ u ∈ vs, u ∈ us) →
            ((vs.map (fun u => u.coll.childRow path)).map dirOf).foldlM (fun w dir =>
              (Q.dirColl J coll fuel dir.1 w).map
                (Q.dirDataObj J (dir.1.drop (coll.length + 1) ++ "/".toList) dir.2)) v
              = some w' →
            Visits Q coll (CollTree.itemsInside Q.toCatalog path vs) v w' := by
          intro vs
          induction vs with
          | nil => exact fun v w' _ hv => Option.some.inj hv ▸ .refl v
          | cons u vs ihv =>
            intro v w' hsub hv
            rw [List.map_cons, List.map_cons, List.foldlM_cons] at hv
            obtain ⟨x, hx, hv⟩ := Option.bind_eq_some_iff.mp hv
            obtain ⟨y, hy, rfl⟩ := Option.map_eq_some_iff.mp hx
            have hu : u ∈ us := hsub u List.mem_cons_self
            have hbelow : Text.Below coll (Text.child path u.coll.name) :=
              .child hpath (names u hu).1 (names u hu).2
            have hstart : WalkItem.namesStart coll (Text.child path u.coll.name)
                = (Text.child path u.coll.name).drop (coll.length + 1) ++ "/".toList :=
              if_neg hbelow.ne
            have hinside := ih u hu (.inr hbelow) (below u hu) hy
            have hobjects := @dirDataObj_visits Q J coll (Text.child path u.coll.name) u.coll.id y
            rw [hstart] at hobjects
            exact (hinside.trans hobjects).trans
              (ihv _ w' (fun u hu => hsub u (List.mem_cons_of_mem _ hu)) hv)
        unfold dirColl at h
        dsimp only at h
        obtain ⟨p, hp, hall, hdirs, hlevel⟩ := @listColl_visits Q J coll path w
        rw [subColls] at hp hall
        obtain ⟨vs, hvs, rfl⟩ := exists_prefix_of_map hp
        rw [hdirs] at h
        have hinside := hrun vs _ w' (fun u hu => hvs.subset hu) h
        refine (hlevel.trans hinside).mono ?_ (fun hf => ?_)
        · rw [CollTree.itemsBelow, List.map_map]
          exact ((hvs.sublist).map _).append (itemsInside_sublist hvs)
        · have hmap := hall (fine_of_le hinside.requests hf)
          have hlength := congrArg List.length hmap
          rw [List.length_map, List.length_map] at hlength
          rw [hvs.eq_of_length hlength, CollTree.itemsBelow, List.map_map]
          rfl

/-- **What a walk visits**, whatever the server does: items of the tree in their order, and
all of them where no request has failed. -/
theorem walk_visits {t : CollTree} (hs : t.Stands Q.toCatalog coll) {fuel : ℕ} {w w' : Walk}
    (h : Q.walk J fuel coll t.coll.id w = some w') :
    Visits Q coll (t.items Q.toCatalog coll) w w' := by
  obtain ⟨v, hv, rfl⟩ := Option.map_eq_some_iff.mp h
  have hobjects := @dirDataObj_visits Q J coll coll t.coll.id v
  rw [WalkItem.namesStart, if_pos rfl] at hobjects
  exact (dirColl_visits (.inl rfl) hs hv).trans hobjects

end GenQuery
