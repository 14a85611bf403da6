import IrodsMicroservices.WalkOrder

/-!
# The walk over a part of a tree

The walk of `msiArchiveCreate` has no status: a request that fails ends its loop, and the
archive is made of what has been seen by then. What has been seen is a *part* of the tree.
Of each statement the first rows have been processed, so that collections and data objects
are missing at the end of a level, and attributes and permissions at the end of a list.

Every call of such a walk is one of the whole walk, with its lists cut off (`CutFrom`), and
the calls are in the order of the whole walk. A collection is missing only with all that is
in it (`walk_part`).
-/

open Catalog

/-! ## Lists that are cut off -/

/-- **The first elements of a list**, or no list at all. -/
inductive CutList : Option Json → Option Json → Prop
  | nothing (v : Option Json) : CutList none v
  | array {es es' : List Json} (h : es <+: es') : CutList (some (.array es)) (some (.array es'))

/-- The list of some first rows. -/
theorem cutList_listOf {α : Type} (entry : α → Option Json) {p rows : List α} (h : p <+: rows) :
    CutList (listOf entry p) (listOf entry rows) := by
  unfold listOf
  split
  · exact .nothing _
  · rename_i hp
    have hrows : rows ≠ [] := fun hrows => hp (List.prefix_nil.mp (hrows ▸ h))
    rw [if_neg hrows]
    exact .array (h.filterMap entry)

namespace ArchiveCall

/-- **A call with its lists cut off.** -/
inductive CutFrom : ArchiveCall → ArchiveCall → Prop
  | addColl {name : Text} {created modified : ℤ} {owner zone : Text}
      {attributes attributes' acl acl' : Option Json} (hattributes : CutList attributes attributes')
      (hacl : CutList acl acl') :
      CutFrom (.addColl name created modified owner zone attributes acl)
        (.addColl name created modified owner zone attributes' acl')
  | addDataObj {name : Text} {size : BitVec 64} {created modified : ℤ} {owner zone checksum : Text}
      {attributes attributes' acl acl' : Option Json} (hattributes : CutList attributes attributes')
      (hacl : CutList acl acl') :
      CutFrom (.addDataObj name size created modified owner zone checksum attributes acl)
        (.addDataObj name size created modified owner zone checksum attributes' acl')

namespace CutFrom

variable {c c' : ArchiveCall}

theorem name (h : c.CutFrom c') : c.name = c'.name := by
  cases h <;> rfl

theorem isColl (h : c.CutFrom c') : c.isColl = c'.isColl := by
  cases h <;> rfl

theorem isSelf (h : c.CutFrom c') (path origin : Text) :
    c.isSelf path origin = c'.isSelf path origin := by
  rw [ArchiveCall.isSelf, ArchiveCall.isSelf, h.isColl, h.name]

/-- What is located in a collection is so with its lists cut off. -/
theorem locatedIn_iff (h : c.CutFrom c') {d d' : ArchiveCall} (hd : d.CutFrom d') :
    c.LocatedIn d ↔ c'.LocatedIn d' := by
  rw [LocatedIn, LocatedIn, hd.isColl, hd.name, h.name]

end CutFrom

end ArchiveCall

/-! ## The loops -/

namespace GenQuery

variable {Q : GenQuery} {J : Jansson}

/-- One row more in a list. -/
theorem collectRow_entries {α : Type} {entry : α → Option Json} {p : List α} {a : α}
    {s : Walk × Option (List Json)}
    (h : s.2 = if p = [] then none else some (p.filterMap entry)) :
    (collectRow entry s a).2 = some ((p ++ [a]).filterMap entry) := by
  have hlist : s.2.getD [] = p.filterMap entry := by
    rw [h]
    split
    · rename_i hp
      rw [hp]
      rfl
    · rfl
  show some (Json.appendNew (s.2.getD []) (entry a)) = _
  rw [hlist, List.filterMap_append, Json.appendNew]
  cases he : entry a <;> simp [he]

/-- **A list that is collected has the entries of some first rows.** -/
theorem collectList_cut {α : Type} (entry : α → Option Json) (rows : List α) (w : Walk) :
    CutList (Q.collectList entry rows w).1 (listOf entry rows) := by
  obtain ⟨p, hp, h⟩ := readPages_prefix (Q.server.withLocal (Option (List Json)))
    (collectRow entry) (fun p s => s.2 = if p = [] then none else some (p.filterMap entry))
    rows (w, none) (fun _ _ _ _ h => h)
    (fun p a s _ h => by rw [collectRow_entries h, if_neg (by simp)]) rfl
  have hlist : (Q.collectList entry rows w).1 = listOf entry p := by
    unfold collectList listOf
    dsimp only
    rw [h]
    split <;> rfl
  rw [hlist]
  exact cutList_listOf entry hp

/-- A data object's row issues one call. -/
theorem dataObjRow_cut (coll : Text) (w : Walk) (r : DataRow) :
    ∃ c, (Q.dataObjRow J coll w r).calls = w.calls ++ [c]
      ∧ c.CutFrom (Q.dataObjCall J coll r) := by
  have hcalls : (Q.aclDataObj J r.id (Q.attrDataObj J r.id w).2).2.calls = w.calls :=
    (collectList_frame _ _ _).1.trans (collectList_frame _ _ _).1
  have hattributes : CutList (Q.attrDataObj J r.id w).1 _ := collectList_cut _ _ _
  have hacl : CutList (Q.aclDataObj J r.id (Q.attrDataObj J r.id w).2).1 _ :=
    collectList_cut _ _ _
  refine ⟨_, ?_, .addDataObj hattributes hacl⟩
  unfold dataObjRow
  rw [Walk.calls_emit, hcalls]

/-- A collection's row issues one call. -/
theorem collRow_cut (coll : Text) (s : Walk × List (Text × ℤ)) (r : CollRow) :
    ∃ c, (Q.collRow J coll s r).1.calls = s.1.calls ++ [c]
      ∧ c.CutFrom (Q.collCall J coll r) := by
  have hcalls : (Q.aclColl J r.id (Q.attrColl J r.id s.1).2).2.calls = s.1.calls :=
    (collectList_frame _ _ _).1.trans (collectList_frame _ _ _).1
  have hattributes : CutList (Q.attrColl J r.id s.1).1 _ := collectList_cut _ _ _
  have hacl : CutList (Q.aclColl J r.id (Q.attrColl J r.id s.1).2).1 _ := collectList_cut _ _ _
  refine ⟨_, ?_, .addColl hattributes hacl⟩
  unfold collRow
  rw [Walk.calls_emit, hcalls]

/-- Some rows, each with one call, have been processed. -/
theorem cut_append {α : Type} {call : α → ArchiveCall} {calls calls' cs : List ArchiveCall}
    {c : ArchiveCall} {p : List α} {r : α} (hcs : calls = calls' ++ cs)
    (hcut : List.Forall₂ ArchiveCall.CutFrom cs (p.map call)) (hc : c.CutFrom (call r)) :
    ∃ cs', calls ++ [c] = calls' ++ cs'
      ∧ List.Forall₂ ArchiveCall.CutFrom cs' ((p ++ [r]).map call) := by
  refine ⟨cs ++ [c], by rw [hcs, List.append_assoc], ?_⟩
  rw [List.map_append]
  exact List.rel_append hcut (.cons hc .nil)

/-- **`dirDataObj` adds some first rows of its collection.** -/
theorem dirDataObj_cut (coll : Text) (collId : ℤ) (w : Walk) :
    ∃ cs p, (Q.dirDataObj J coll collId w).calls = w.calls ++ cs ∧ p <+: Q.dataObjs collId
      ∧ List.Forall₂ ArchiveCall.CutFrom cs (p.map (Q.dataObjCall J coll)) := by
  obtain ⟨p, hp, cs, hcalls, hcut⟩ := readPages_prefix Q.server (Q.dataObjRow J coll)
    (fun p s => ∃ cs, s.calls = w.calls ++ cs
      ∧ List.Forall₂ ArchiveCall.CutFrom cs (p.map (Q.dataObjCall J coll)))
    (Q.dataObjs collId) w (fun _ _ _ _ h => h)
    (fun p r s _ ⟨cs, hcs, hcut⟩ => by
      obtain ⟨c, hcalls, hc⟩ := dataObjRow_cut (Q := Q) (J := J) coll s r
      rw [hcalls]
      exact cut_append hcs hcut hc)
    ⟨[], (List.append_nil _).symm, .nil⟩
  exact ⟨cs, p, hcalls, hp, hcut⟩

/-- **The query loop of `dirColl` adds some first collections below the path**, those that
it puts on the worklist. -/
theorem listColl_cut (coll path : Text) (w : Walk) :
    ∃ cs p, (Q.listColl J coll path w).1.calls = w.calls ++ cs
      ∧ p <+: Q.subColls (nameCond path)
      ∧ List.Forall₂ ArchiveCall.CutFrom cs (p.map (Q.collCall J coll))
      ∧ (Q.listColl J coll path w).2 = p.map dirOf := by
  obtain ⟨p, hp, ⟨cs, hcalls, hcut⟩, hdirs⟩ := readPages_prefix (Q.server.withLocal _)
    (Q.collRow J coll)
    (fun p s => (∃ cs, s.1.calls = w.calls ++ cs
      ∧ List.Forall₂ ArchiveCall.CutFrom cs (p.map (Q.collCall J coll))) ∧ s.2 = p.map dirOf)
    (Q.subColls (nameCond path)) (w, []) (fun _ _ _ _ h => h)
    (fun p r s _ ⟨⟨cs, hcs, hcut⟩, hdirs⟩ => by
      obtain ⟨c, hcalls, hc⟩ := collRow_cut (Q := Q) (J := J) coll s r
      refine ⟨?_, ?_⟩
      · rw [hcalls]
        exact cut_append hcs hcut hc
      · rw [List.map_append, ← hdirs]
        rfl)
    ⟨⟨[], (List.append_nil _).symm, .nil⟩, rfl⟩
  exact ⟨cs, p, hcalls, hp, hcut, hdirs⟩

end GenQuery

/-! ## Parts of lists -/

section Parts

variable {α β : Type} {R : α → β → Prop} {l₁ l₁' : List α} {l₂ l₂' : List β}

theorem List.SublistForall₂.append (h : List.SublistForall₂ R l₁ l₂)
    (h' : List.SublistForall₂ R l₁' l₂') : List.SublistForall₂ R (l₁ ++ l₁') (l₂ ++ l₂') := by
  obtain ⟨l, hl, hsub⟩ := List.sublistForall₂_iff.mp h
  obtain ⟨l', hl', hsub'⟩ := List.sublistForall₂_iff.mp h'
  exact List.sublistForall₂_iff.mpr ⟨l ++ l', List.rel_append hl hl', hsub.append hsub'⟩

theorem List.SublistForall₂.exists_right (h : List.SublistForall₂ R l₁ l₂) {a : α} (ha : a ∈ l₁) :
    ∃ b ∈ l₂, R a b := by
  induction h with
  | nil => exact absurd ha List.not_mem_nil
  | @cons a₁ a₂ _ _ hR _ ih =>
    rcases List.mem_cons.mp ha with rfl | ha
    · exact ⟨a₂, List.mem_cons_self, hR⟩
    · obtain ⟨b, hb, hab⟩ := ih ha
      exact ⟨b, List.mem_cons_of_mem _ hb, hab⟩
  | cons_right _ ih =>
    obtain ⟨b, hb, hab⟩ := ih ha
    exact ⟨b, List.mem_cons_of_mem _ hb, hab⟩

theorem List.SublistForall₂.filter {p : α → Bool} {q : β → Bool}
    (hpq : ∀ {a b}, R a b → p a = q b) (h : List.SublistForall₂ R l₁ l₂) :
    List.SublistForall₂ R (l₁.filter p) (l₂.filter q) := by
  obtain ⟨l, hl, hsub⟩ := List.sublistForall₂_iff.mp h
  have hfilter : List.Forall₂ R (l₁.filter p) (l.filter q) :=
    List.rel_filter (fun _ _ hab => Eq.to_iff (congrArg (· = true) (hpq hab))) hl
  exact List.sublistForall₂_iff.mpr ⟨_, hfilter, hsub.filter q⟩

theorem List.SublistForall₂.trans_sublist (h : List.SublistForall₂ R l₁ l₂)
    (hsub : l₂.Sublist l₂') : List.SublistForall₂ R l₁ l₂' := by
  obtain ⟨l, hl, hsub'⟩ := List.sublistForall₂_iff.mp h
  exact List.sublistForall₂_iff.mpr ⟨l, hl, hsub'.trans hsub⟩

theorem List.Forall₂.sublistForall₂ (h : List.Forall₂ R l₁ l₂') (hsub : l₂'.Sublist l₂) :
    List.SublistForall₂ R l₁ l₂ :=
  List.sublistForall₂_iff.mpr ⟨l₂', h, hsub⟩

end Parts

/-! ## A part of a tree -/

/-- **A part of some calls**: they are in the same order, with their lists cut off, and a
collection is missing only with all that is located in it. -/
structure Curtailed (cs calls : List ArchiveCall) : Prop where
  cut : List.SublistForall₂ ArchiveCall.CutFrom cs calls
  closed : ∀ a ∈ cs, ∀ b ∈ calls, a.LocatedIn b → ∃ b' ∈ cs, b'.CutFrom b

namespace CollTree

variable {K : Catalog} {J : Jansson} {pre : Text}

/-- The names of data objects are names: they have no slash. -/
def ObjectsNamed : CollTree → Prop := All (fun c => ∀ o ∈ c.objects, '/' ∉ o.name)

theorem ObjectsNamed.rows {path : Text} {t : CollTree} (h : t.ObjectsNamed)
    (hs : t.Shows K path) : ∀ r ∈ K.dataObjs t.coll.id, '/' ∉ r.name := by
  intro r hr
  cases hs with
  | node _ dataObjs =>
    cases h with
    | node here =>
      obtain ⟨o, ho, hrow⟩ := List.mem_flatMap.mp (dataObjs.mem_iff.mp hr)
      obtain ⟨_, -, rfl⟩ := List.mem_map.mp hrow
      exact here o ho

theorem ObjectsNamed.below {c : Collection} {us : List CollTree}
    (h : (node c us).ObjectsNamed) : ∀ u ∈ us, u.ObjectsNamed := by
  cases h with
  | node _ below => exact below

theorem Shows.level {path : Text} {c : Collection} {us : List CollTree}
    (h : (CollTree.node c us).Shows K path) :
    K.subColls (nameCond path) = us.map (fun u => u.coll.row path)
      ∧ ∀ u ∈ us, u.Shows K (Text.join path u.coll.name) := by
  cases h with
  | node subColls _ _ _ _ _ below => exact ⟨subColls, below⟩

theorem Named.level {c : Collection} {us : List CollTree} (h : (CollTree.node c us).Named) :
    (us.map (fun u => u.coll.name)).Nodup ∧ (∀ u ∈ us, '/' ∉ u.coll.name)
      ∧ ∀ u ∈ us, u.Named := by
  cases h with
  | node nodup name below => exact ⟨nodup, name, below⟩

theorem contentsBelow_sublist {vs us : List CollTree} (h : vs.Sublist us) :
    (contentsBelow K J pre vs).Sublist (contentsBelow K J pre us) := by
  induction h with
  | slnil => exact List.Sublist.refl _
  | cons u _ ih =>
    rw [contentsBelow.eq_2]
    exact ih.trans (List.sublist_append_right _ _)
  | cons_cons u _ ih =>
    rw [contentsBelow, contentsBelow]
    exact (List.Sublist.refl _).append ih

/-- The calls for the data objects of a collection, after those for what is below it. -/
theorem curtailed_append_objects {t : CollTree} {cs os : List ArchiveCall}
    (h : Curtailed cs (t.contents K J pre)) {p : List DataRow} (hp : p <+: K.dataObjs t.coll.id)
    (hos : List.Forall₂ ArchiveCall.CutFrom os (p.map (K.dataObjCall J pre)))
    (hnames : ∀ r ∈ K.dataObjs t.coll.id, '/' ∉ r.name) :
    Curtailed (cs ++ os) (t.contents K J pre ++ t.objectCalls K J pre) := by
  have hobjects : List.SublistForall₂ ArchiveCall.CutFrom os (t.objectCalls K J pre) :=
    hos.sublistForall₂ (hp.sublist.map _)
  refine ⟨h.cut.append hobjects, fun a ha b hb hloc => ?_⟩
  rcases List.mem_append.mp hb with hb | hb
  · rcases List.mem_append.mp ha with ha | ha
    · obtain ⟨b', hb', hcut⟩ := h.closed a ha b hb hloc
      exact ⟨b', List.mem_append_left _ hb', hcut⟩
    -- a data object of this collection is not in one below it
    · obtain ⟨a', ha', hcut⟩ := hobjects.exists_right ha
      obtain ⟨r, hr, rfl⟩ := List.mem_map.mp ha'
      obtain ⟨y, hy⟩ := prefix_of_mem_contents (List.mem_append_left _ hb)
      have hinside := hloc.2
      rw [hcut.name, ← hy] at hinside
      exact absurd hinside (Text.not_prefix_name (hnames r hr))
  · exact absurd hloc.1 (by simp [(prefix_of_mem_objectCalls hb).2])

/-- **The parts of some collections**, each located in its own. -/
structure CurtailedBelow (K : Catalog) (J : Jansson) (pre : Text) (cs : List ArchiveCall)
    (vs : List CollTree) : Prop where
  cut : List.SublistForall₂ ArchiveCall.CutFrom cs (contentsBelow K J pre vs)
  closed : ∀ a ∈ cs, ∃ u ∈ vs, u.preBelow pre <+: a.name
    ∧ ∀ b ∈ contents K J (u.preBelow pre) u ++ objectCalls K J (u.preBelow pre) u,
      a.LocatedIn b → ∃ b' ∈ cs, b'.CutFrom b

theorem CurtailedBelow.cons {u : CollTree} {vs : List CollTree} {cs cs' : List ArchiveCall}
    (hu : Curtailed cs (contents K J (u.preBelow pre) u ++ objectCalls K J (u.preBelow pre) u))
    (h : CurtailedBelow K J pre cs' vs) : CurtailedBelow K J pre (cs ++ cs') (u :: vs) := by
  constructor
  · rw [contentsBelow]
    exact hu.cut.append h.cut
  · intro a ha
    rcases List.mem_append.mp ha with ha | ha
    · obtain ⟨a', ha', hcut⟩ := hu.cut.exists_right ha
      refine ⟨u, List.mem_cons_self, hcut.name ▸ prefix_of_mem_contents ha', fun b hb hloc => ?_⟩
      obtain ⟨b', hb', hcut'⟩ := hu.closed a ha b hb hloc
      exact ⟨b', List.mem_append_left _ hb', hcut'⟩
    · obtain ⟨v, hv, hpre, hclosed⟩ := h.closed a ha
      refine ⟨v, List.mem_cons_of_mem _ hv, hpre, fun b hb hloc => ?_⟩
      obtain ⟨b', hb', hcut'⟩ := hclosed b hb hloc
      exact ⟨b', List.mem_append_right _ hb', hcut'⟩

/-- The collections of a level, of which some first ones have been listed, and what is in
those. -/
theorem curtailed_of_level {c : Collection} {us vs : List CollTree} (hvs : vs <+: us)
    (hnodup : (us.map (fun u => u.coll.name)).Nodup) (hnames : ∀ u ∈ us, '/' ∉ u.coll.name)
    {ls cs : List ArchiveCall}
    (hls : List.Forall₂ ArchiveCall.CutFrom ls
      (vs.map (fun u => u.coll.call J (pre ++ u.coll.name))))
    (hcs : CurtailedBelow K J pre cs vs) : Curtailed (ls ++ cs) ((node c us).contents K J pre) := by
  have hlevel : List.SublistForall₂ ArchiveCall.CutFrom ls
      (us.map (fun u => u.coll.call J (pre ++ u.coll.name))) :=
    hls.sublistForall₂ (hvs.sublist.map _)
  constructor
  · rw [contents]
    exact hlevel.append (hcs.cut.trans_sublist (contentsBelow_sublist hvs.sublist))
  · intro a ha b hb hloc
    rw [contents] at hb
    have hpre : pre <+: b.name :=
      prefix_of_mem_contents (t := node c us) (List.mem_append_left _ (by rwa [contents]))
    rcases List.mem_append.mp ha with ha | ha
    -- a collection of the level is in none below the same collection
    · obtain ⟨a', ha', hcut⟩ := hlevel.exists_right ha
      obtain ⟨u, hu, rfl⟩ := List.mem_map.mp ha'
      obtain ⟨y, hy⟩ := hpre
      have hinside := hloc.2
      rw [hcut.name, ← hy] at hinside
      exact absurd hinside (Text.not_prefix_name (hnames u hu))
    · obtain ⟨u, hu, hprea, hclosed⟩ := hcs.closed a ha
      have hsame : ∀ v ∈ us, v.preBelow pre <+: a.name → v = u := fun v hv hprev =>
        List.inj_on_of_nodup_map hnodup hv (hvs.subset hu)
          (Text.name_eq_of_prefix (hnames v hv) (hnames u (hvs.subset hu)) hprev hprea)
      rcases List.mem_append.mp hb with hb | hb
      · obtain ⟨v, hv, rfl⟩ := List.mem_map.mp hb
        obtain rfl := hsame v hv hloc.2
        obtain ⟨b', hb', hcut⟩ := (hls.flip.sublistForall₂ (List.Sublist.refl _)).exists_right
          (List.mem_map_of_mem hu)
        exact ⟨b', List.mem_append_left _ hb', hcut⟩
      · obtain ⟨v, hv, hb⟩ := mem_contentsBelow hb
        have hprev : v.preBelow pre <+: a.name :=
          (prefix_of_mem_contents hb).trans ((List.prefix_append _ _).trans hloc.2)
        obtain rfl := hsame v hv hprev
        obtain ⟨b', hb', hcut⟩ := hclosed b hb hloc
        exact ⟨b', List.mem_append_right _ hb', hcut⟩

end CollTree

namespace GenQuery

variable {Q : GenQuery} {J : Jansson}

/-- Working off a list of collections adds a part of each, where the descent into each of
them adds a part of what is below it. -/
theorem worklist_part {coll path pre : Text} (hpre : path ++ ['/'] = Text.join coll pre)
    {descend : Text → Walk → Option Walk} {vs : List CollTree}
    (hs : ∀ u ∈ vs, u.Shows Q.toCatalog (Text.join path u.coll.name))
    (hobjects : ∀ u ∈ vs, u.ObjectsNamed)
    (hdescend : ∀ u ∈ vs, ∀ w w', descend (Text.join path u.coll.name) w = some w' →
      ∃ cs, w'.calls = w.calls ++ cs
        ∧ Curtailed cs (u.contents Q.toCatalog J (u.preBelow pre))) :
    ∀ {w w' : Walk}, ((vs.map (fun u => u.coll.row path)).map dirOf).foldlM (fun w dir =>
        (descend dir.1 w).map
          (Q.dirDataObj J (dir.1.drop (coll.length + 1) ++ "/".toList) dir.2)) w = some w' →
      ∃ cs, w'.calls = w.calls ++ cs ∧ CollTree.CurtailedBelow Q.toCatalog J pre cs vs := by
  induction vs with
  | nil =>
    intro w w' h
    have hw : w = w' := Option.some.inj h
    exact ⟨[], by rw [hw, List.append_nil], .nil, List.forall_mem_nil _⟩
  | cons u vs ih =>
    intro w w' h
    obtain ⟨hsu, hs⟩ := List.forall_mem_cons.mp hs
    obtain ⟨hobjectsu, hobjects⟩ := List.forall_mem_cons.mp hobjects
    obtain ⟨hdescendu, hdescend⟩ := List.forall_mem_cons.mp hdescend
    rw [List.map_cons, List.map_cons, List.foldlM_cons] at h
    obtain ⟨x, hx, h⟩ := Option.bind_eq_some_iff.mp h
    obtain ⟨y, hy, rfl⟩ := Option.map_eq_some_iff.mp hx
    obtain ⟨cs, hcalls, hcs⟩ := hdescendu w y hy
    have hpreu : (dirOf (u.coll.row path)).1.drop (coll.length + 1) ++ "/".toList
        = u.preBelow pre := by
      show (Text.join path u.coll.name).drop _ ++ _ = _
      rw [drop_join_of_pre hpre]
      rfl
    rw [hpreu] at h
    obtain ⟨os, p, hcallso, hp, hos⟩ :=
      dirDataObj_cut (Q := Q) (J := J) (u.preBelow pre) u.coll.id y
    obtain ⟨cs', hcalls', hcs'⟩ := ih hs hobjects hdescend h
    refine ⟨(cs ++ os) ++ cs', ?_, .cons (CollTree.curtailed_append_objects hcs hp hos
      (hobjectsu.rows hsu)) hcs'⟩
    have hdirs : (dirOf (u.coll.row path)).2 = u.coll.id := rfl
    rw [hcalls', hdirs, hcallso, hcalls]
    simp only [List.append_assoc]

/-- **What `dirColl` adds for a tree**, whatever the server does: a part of it. The
induction is on the tree; the worklist lists some first collections of its first level. -/
theorem dirColl_part (coll : Text) {t : CollTree} :
    ∀ {path pre : Text} {fuel : ℕ} {w w' : Walk}, path ++ ['/'] = Text.join coll pre →
      t.Shows Q.toCatalog path → t.Named → t.ObjectsNamed →
      Q.dirColl J coll fuel path w = some w' →
      ∃ cs, w'.calls = w.calls ++ cs ∧ Curtailed cs (t.contents Q.toCatalog J pre) := by
  induction t using CollTree.nestedInduction with
  | node c us ih =>
    intro path pre fuel w w' hpre hs hnamed hobjects h
    cases fuel with
    | zero => exact absurd h (by simp [dirColl])
    | succ fuel =>
      obtain ⟨hsubColls, hbelow⟩ := hs.level
      obtain ⟨hnodup, hname, hbelowNamed⟩ := hnamed.level
      unfold dirColl at h
      dsimp only at h
      obtain ⟨ls, p, hcalls, hp, hls, hdirs⟩ := listColl_cut (Q := Q) (J := J) coll path w
      obtain ⟨vs, hvs, rfl⟩ : ∃ vs, vs <+: us ∧ vs.map (fun u => u.coll.row path) = p := by
        rw [hsubColls] at hp
        exact ⟨us.take p.length, List.take_prefix _ _, by
          rw [List.map_take, ← List.prefix_iff_eq_take.mp hp]⟩
      rw [hdirs] at h
      obtain ⟨cs, hcalls', hcs⟩ := worklist_part hpre (fun u hu => hbelow u (hvs.subset hu))
        (fun u hu => hobjects.below u (hvs.subset hu))
        (fun u hu w w' => ih u (hvs.subset hu) (pre_join hpre u) (hbelow u (hvs.subset hu))
          (hbelowNamed u (hvs.subset hu)) (hobjects.below u (hvs.subset hu))) h
      have hlevel : (vs.map (fun u => u.coll.row path)).map (Q.collCall J coll)
          = vs.map (fun u => u.coll.call J (pre ++ u.coll.name)) := by
        rw [List.map_map]
        exact List.map_congr_left (fun u hu => collCall_row hpre (hbelow u (hvs.subset hu)))
      rw [hlevel] at hls
      refine ⟨ls ++ cs, ?_, CollTree.curtailed_of_level hvs hnodup hname hls hcs⟩
      rw [hcalls', hcalls, List.append_assoc]

/-- **What the walk issues for a tree**, whatever the server does: a part of it. -/
theorem walk_part {coll : Text} {t : CollTree} (hs : t.Shows Q.toCatalog coll)
    (hnamed : t.Named) (hobjects : t.ObjectsNamed) {fuel : ℕ} {w w' : Walk}
    (h : Q.walk J fuel coll t.coll.id w = some w') :
    ∃ cs, w'.calls = w.calls ++ cs ∧ Curtailed cs (t.calls Q.toCatalog J) := by
  obtain ⟨v, hv, rfl⟩ := Option.map_eq_some_iff.mp h
  obtain ⟨cs, hcalls, hcs⟩ := dirColl_part coll rfl hs hnamed hobjects hv
  obtain ⟨os, p, hcallso, hp, hos⟩ := dirDataObj_cut (Q := Q) (J := J) [] t.coll.id v
  refine ⟨cs ++ os, ?_, CollTree.curtailed_append_objects hcs hp hos (hobjects.rows hs)⟩
  rw [hcallso, hcalls, List.append_assoc]

end GenQuery
