import IrodsMicroservices.Filesystem

/-!
# A tree with one link

For every path with a dot-dot that cancels a name there is a file system in which
the path and its normal form lead to two directories (`exists_fork`): the name that
is cancelled first is a link to a directory far below the root, the dot-dot leaves
that directory, and what follows never comes back up.

The tree has all directories down to some depth whose names are from a list, and
the link in one place (`linkTree`). A walk without a cancelled name in it goes to the
segments that are left, and from the link on below the target (`walk_linkTree`).
-/

open LexicalPath

namespace LinkTree

/-- The names a tree is made of, the place of the link, and how deep its target is and
the tree itself. -/
structure Shape where
  /-- The names of the tree. -/
  alphabet : List Text
  isName : ∀ x ∈ alphabet, IsName x
  /-- The name the target of the link is made of. -/
  q : Text
  q_mem : q ∈ alphabet
  /-- Where the link is. -/
  link : Location
  link_ne_nil : link ≠ []
  link_mem : ∀ x ∈ link, x ∈ alphabet
  q_not_mem : q ∉ link
  /-- How deep the target of the link is. -/
  depth : ℕ
  depth_pos : 0 < depth
  /-- How deep the tree is. -/
  bound : ℕ

variable (S : Shape)

namespace Shape

/-- The target of the link. -/
def target : Text := normalText true (List.replicate S.depth S.q) false

/-- What stands at a location of the tree. -/
def nodeAt (loc : Location) : Option FsNode :=
  if loc.length ≤ S.bound ∧ ∀ x ∈ loc, x ∈ S.alphabet then
    if loc = S.link then some (.link S.target)
    else if S.link <+: loc then none
    else some .dir
  else none

theorem nodeAt_dir {loc : Location} (hlen : loc.length ≤ S.bound)
    (hmem : ∀ x ∈ loc, x ∈ S.alphabet) (hlink : ¬ S.link <+: loc) :
    S.nodeAt loc = some .dir := by
  have hne : loc ≠ S.link := by
    rintro rfl
    exact hlink List.prefix_rfl
  unfold nodeAt
  rw [if_pos ⟨hlen, hmem⟩, if_neg hne, if_neg hlink]

theorem nodeAt_link (hlen : S.link.length ≤ S.bound) :
    S.nodeAt S.link = some (.link S.target) := by
  unfold nodeAt
  rw [if_pos ⟨hlen, S.link_mem⟩, if_pos rfl]

/-- What stands in a directory of the tree. -/
theorem nodeAt_concat {loc : Location} {x : Text} (h : S.nodeAt (loc ++ [x]) ≠ none) :
    x ∈ S.alphabet ∧ S.nodeAt loc = some .dir := by
  unfold nodeAt at h
  split at h
  · rename_i hcond
    obtain ⟨hlen, hmem⟩ := hcond
    rw [List.length_append] at hlen
    refine ⟨hmem x (List.mem_append_right _ (List.mem_singleton_self x)), S.nodeAt_dir
      (le_trans (Nat.le_add_right _ _) hlen) (fun y hy => hmem y (List.mem_append_left _ hy))
      (fun hpre => ?_)⟩
    have hne : loc ++ [x] ≠ S.link := by
      intro heq
      have := hpre.length_le
      rw [← heq, List.length_append, List.length_singleton] at this
      omega
    rw [if_neg hne, if_pos (hpre.trans (List.prefix_append _ _))] at h
    exact h rfl
  · exact absurd rfl h

/-- **The tree.** -/
def linkTree : Filesystem where
  node := S.nodeAt
  names loc := (S.alphabet.filter (fun x => decide (S.nodeAt (loc ++ [x]) ≠ none))).dedup
  mtime _ := 0
  root := S.nodeAt_dir (Nat.zero_le _) (List.forall_mem_nil _)
    (fun h => S.link_ne_nil (List.prefix_nil.mp h))
  parent h := (S.nodeAt_concat h).2
  isName h := S.isName _ (S.nodeAt_concat h).1
  mem_names loc x := by
    rw [List.mem_dedup, List.mem_filter, decide_eq_true_iff]
    exact ⟨fun h => h.2, fun h => ⟨(S.nodeAt_concat h).1, h⟩⟩
  nodup_names _ := List.nodup_dedup _

end Shape

/-! ## Walking the tree -/

section Walk

variable {S} {f : Filesystem.Place → Text → Except PathError Filesystem.Place}

/-- A step into a directory. -/
theorem stepPiece_dir {fs : Filesystem} {loc : Location} {x : Text} {links : ℕ} (hx : IsName x)
    (hdir : fs.node loc = some .dir) (hnew : fs.node (loc ++ [x]) = some .dir) :
    fs.stepPiece f (loc, links) x = .ok (loc ++ [x], links) := by
  unfold Filesystem.stepPiece
  rw [hdir]
  dsimp only
  rw [if_neg hx.1, if_neg hx.2.1, hnew]

/-- A step to a link. -/
theorem stepPiece_link {fs : Filesystem} {loc : Location} {x target : Text} {links : ℕ}
    (hx : IsName x) (hdir : fs.node loc = some .dir)
    (hnew : fs.node (loc ++ [x]) = some (.link target)) :
    fs.stepPiece f (loc, links) x = f (loc, links) target := by
  unfold Filesystem.stepPiece
  rw [hdir]
  dsimp only
  rw [if_neg hx.1, if_neg hx.2.1, hnew]

/-- What starts with the name of the target is not below the link. -/
theorem not_prefix_of_q {j : ℕ} (hj : 0 < j) (ns : Location) :
    ¬ S.link <+: List.replicate j S.q ++ ns := by
  intro h
  obtain ⟨x, xs, hxs⟩ := List.exists_cons_of_ne_nil S.link_ne_nil
  obtain ⟨j, rfl⟩ := Nat.exists_eq_succ_of_ne_zero (Nat.ne_of_gt hj)
  rw [hxs, List.replicate_succ, List.cons_append, List.cons_prefix_cons] at h
  exact S.q_not_mem (by rw [hxs, ← h.1]; exact List.mem_cons_self)

/-- A location below the root of the target. -/
theorem dir_of_q {j : ℕ} (hj : 0 < j) {ns : Location} (hns : ∀ x ∈ ns, x ∈ S.alphabet)
    (hlen : j + ns.length ≤ S.bound) :
    S.linkTree.node (List.replicate j S.q ++ ns) = some .dir := by
  refine S.nodeAt_dir ?_ (fun x hx => ?_) (not_prefix_of_q hj ns)
  · rwa [List.length_append, List.length_replicate]
  · rcases List.mem_append.mp hx with hx | hx
    · exact List.eq_of_mem_replicate hx ▸ S.q_mem
    · exact hns x hx

/-- The walk down to the target. -/
theorem walk_q : ∀ {n : ℕ} (links : ℕ), n ≤ S.bound →
    S.linkTree.walk f (List.replicate n S.q) ([], links) = .ok (List.replicate n S.q, links) := by
  intro n
  induction n with
  | zero => exact fun _ _ => rfl
  | succ n ih =>
    intro links hn
    rw [List.replicate_succ', Filesystem.walk_append, ih links (by omega)]
    refine (Filesystem.walk_singleton _ _).trans ?_
    have hdir : S.linkTree.node (List.replicate n S.q) = some .dir := by
      cases n with
      | zero => exact S.linkTree.root
      | succ n =>
        rw [← List.append_nil (List.replicate _ _)]
        exact dir_of_q (Nat.succ_pos n) (List.forall_mem_nil _) (by rw [List.length_nil]; omega)
    refine stepPiece_dir (S.isName _ S.q_mem) hdir ?_
    rw [← List.replicate_succ', ← List.append_nil (List.replicate _ _)]
    exact dir_of_q (Nat.succ_pos n) (List.forall_mem_nil _) (by rw [List.length_nil]; omega)

/-- **Following the link leads to its target.** -/
theorem follow_target (hbound : S.depth ≤ S.bound) (d links : ℕ) (loc : Location) :
    S.linkTree.follow (d + 1) (loc, links + 1) S.target
      = .ok (List.replicate S.depth S.q, links) := by
  have hslash : ∀ x ∈ List.replicate S.depth S.q, '/' ∉ x := by
    intro x hx
    rw [List.eq_of_mem_replicate hx]
    exact (S.isName _ S.q_mem).2.2
  have hne : List.replicate S.depth S.q ≠ [] := by
    rw [Ne, List.replicate_eq_nil_iff]
    exact Nat.ne_of_gt S.depth_pos
  have hpieces : pieces S.target = [[]] ++ List.replicate S.depth S.q := by
    refine (pieces_normalText true hslash false).trans ?_
    rw [if_neg hne]
    exact List.append_nil _
  unfold Filesystem.follow
  dsimp only
  rw [if_neg (show S.target ≠ [] from List.cons_ne_nil _ _),
    if_pos (show isAbsolute S.target = true from rfl), hpieces, Filesystem.walk_append,
    Filesystem.walk_noise (List.forall_mem_singleton.mpr (.inl rfl)) S.linkTree.root]
  exact walk_q links hbound

/-- The names on a stack, the outermost first. -/
def names (stack : List Text) : Location :=
  stack.reverse.filter (fun x => decide (x ≠ "..".toList))

/-- Where a location is reached: itself, or below the target. -/
def jump (S : Shape) (loc : Location) : Location :=
  if S.link <+: loc then List.replicate S.depth S.q ++ loc.drop S.link.length else loc

/-- What is reached is a directory. -/
theorem dir_jump {loc : Location} (hmem : ∀ x ∈ loc, x ∈ S.alphabet)
    (hlen : S.depth + loc.length ≤ S.bound) : S.linkTree.node (jump S loc) = some .dir := by
  unfold jump
  split
  · refine dir_of_q S.depth_pos (fun x hx => hmem x (List.mem_of_mem_drop hx)) ?_
    rw [List.length_drop]
    omega
  · rename_i hlink
    exact S.nodeAt_dir (by omega) hmem hlink

theorem jump_nil : jump S [] = [] :=
  if_neg (fun h => S.link_ne_nil (List.prefix_nil.mp h))

/-- One more name. -/
theorem stepPiece_jump {loc : Location} {x : Text} {links : ℕ}
    (hmem : ∀ y ∈ loc ++ [x], y ∈ S.alphabet) (hlen : S.depth + (loc.length + 1) ≤ S.bound)
    (hlinks : ¬ S.link <+: loc → links = Filesystem.maxLinks) :
    ∃ links', S.linkTree.stepPiece (S.linkTree.follow Filesystem.maxLinks) (jump S loc, links) x
        = .ok (jump S (loc ++ [x]), links')
      ∧ (¬ S.link <+: loc ++ [x] → links' = Filesystem.maxLinks) := by
  have hx : IsName x := S.isName x (hmem x (List.mem_append_right _ (List.mem_singleton_self x)))
  have hloc : ∀ y ∈ loc, y ∈ S.alphabet := fun y hy => hmem y (List.mem_append_left _ hy)
  have hdir : S.linkTree.node (jump S loc) = some .dir := dir_jump hloc (by omega)
  have hnew : S.linkTree.node (jump S (loc ++ [x])) = some .dir :=
    dir_jump hmem (by rw [List.length_append, List.length_singleton]; exact hlen)
  by_cases hbelow : S.link <+: loc
  · have hbelow' : S.link <+: loc ++ [x] := hbelow.trans (List.prefix_append _ _)
    have heq : jump S (loc ++ [x]) = jump S loc ++ [x] := by
      unfold jump
      rw [if_pos hbelow', if_pos hbelow, List.drop_append_of_le_length hbelow.length_le,
        List.append_assoc]
    rw [heq] at hnew ⊢
    exact ⟨links, stepPiece_dir hx hdir hnew, fun h => absurd hbelow' h⟩
  · have hjump : jump S loc = loc := if_neg hbelow
    rw [hjump] at hdir ⊢
    by_cases hat : S.link = loc ++ [x]
    · have heq : jump S (loc ++ [x]) = List.replicate S.depth S.q := by
        unfold jump
        rw [← hat, if_pos List.prefix_rfl, List.drop_length, List.append_nil]
      have hlink : S.linkTree.node (loc ++ [x]) = some (.link S.target) := by
        rw [← hat]
        refine S.nodeAt_link ?_
        rw [hat, List.length_append, List.length_singleton]
        omega
      rw [heq, hlinks hbelow]
      refine ⟨39, (stepPiece_link hx hdir hlink).trans (follow_target (by omega) _ _ _), ?_⟩
      exact fun h => absurd (hat ▸ List.prefix_rfl) h
    · have hbelow' : ¬ S.link <+: loc ++ [x] := by
        intro h
        rcases List.prefix_concat_iff.mp h with h | h
        · exact hat h
        · exact hbelow h
      have heq : jump S (loc ++ [x]) = loc ++ [x] := if_neg hbelow'
      rw [heq] at hnew ⊢
      exact ⟨links, stepPiece_dir hx hdir hnew, fun _ => hlinks hbelow⟩

/-- **A walk in which no name is cancelled** goes to the names that are left, and from
the link on below its target. The induction is on the pieces, from the last one
back. -/
theorem walk_linkTree {rooted : Bool} : ∀ {ps : List Text}, ¬ Cancels rooted ps →
    (∀ x ∈ ps, '/' ∉ x) → (∀ x ∈ ps, IsName x → x ∈ S.alphabet) →
    S.depth + ps.length ≤ S.bound →
    (∀ x ∈ names (stack rooted ps), x ∈ S.alphabet) ∧ (names (stack rooted ps)).length ≤ ps.length
      ∧ ∃ links, S.linkTree.walk (S.linkTree.follow Filesystem.maxLinks) ps
          ([], Filesystem.maxLinks) = .ok (jump S (names (stack rooted ps)), links)
        ∧ (¬ S.link <+: names (stack rooted ps) → links = Filesystem.maxLinks) := by
  intro ps
  induction ps using List.reverseRecOn with
  | nil =>
    intro _ _ _ _
    refine ⟨List.forall_mem_nil _, le_rfl, Filesystem.maxLinks, ?_, fun _ => rfl⟩
    show Except.ok _ = Except.ok (jump S [], _)
    rw [jump_nil]
  | append_singleton ps x ih =>
    intro hcancels hslash halpha hlen
    rw [List.length_append, List.length_singleton] at hlen ⊢
    have hcancels' : ¬ Cancels rooted ps := by
      rintro ⟨pre, post, top, rest, rfl, h⟩
      exact hcancels ⟨pre, post ++ [x], top, rest, by simp, h⟩
    obtain ⟨hmem, hcount, links, hwalk, hlinks⟩ := ih hcancels'
      (fun y hy => hslash y (List.mem_append_left _ hy))
      (fun y hy => halpha y (List.mem_append_left _ hy)) (by omega)
    have hlast : x ∈ ps ++ [x] := List.mem_append_right _ (List.mem_singleton_self x)
    have hdir : S.linkTree.node (jump S (names (stack rooted ps))) = some .dir :=
      dir_jump hmem (by omega)
    have hgo : ∀ {r : Filesystem.Place}, S.linkTree.stepPiece
        (S.linkTree.follow Filesystem.maxLinks) (jump S (names (stack rooted ps)), links) x = .ok r →
        S.linkTree.walk (S.linkTree.follow Filesystem.maxLinks) (ps ++ [x])
          ([], Filesystem.maxLinks) = .ok r := by
      intro r hr
      exact Filesystem.walk_append_ok.mpr ⟨_, hwalk, (Filesystem.walk_singleton _ _).trans hr⟩
    rw [stack_concat]
    rcases piece_cases (hslash x hlast) with hx | rfl | hx
    · rw [push_noise hx]
      exact ⟨hmem, by omega, links, hgo (Filesystem.stepPiece_noise hx hdir), hlinks⟩
    · -- only dot-dots are left: the walk is still at the root
      have hnil : names (stack rooted ps) = [] := by
        obtain ⟨ns, m, hst, hns⟩ := stack_shape rooted ps
        cases ns with
        | nil =>
          rw [hst, names, List.nil_append, List.reverse_replicate, List.filter_eq_nil_iff]
          intro y hy
          simp [List.eq_of_mem_replicate hy]
        | cons top ns =>
          refine absurd ⟨ps, [], top, _, rfl, hst, fun h => hns ?_⟩ hcancels
          rw [← h]
          exact List.mem_cons_self
      have hnil' : names (push rooted (stack rooted ps) "..".toList) = [] := by
        rw [push_dotdot]
        split
        · cases rooted <;> rfl
        · rename_i top rest hst
          rw [hst] at hnil
          split
          · rw [hst]
            unfold names at hnil ⊢
            rw [List.reverse_cons, List.filter_append, hnil]
            rfl
          · rename_i htop
            exact absurd ⟨ps, [], top, rest, rfl, hst, htop⟩ hcancels
      rw [hnil] at hgo hlinks hdir
      rw [hnil', jump_nil]
      rw [jump_nil] at hgo hdir
      exact ⟨List.forall_mem_nil _, Nat.zero_le _, links,
        hgo (Filesystem.stepPiece_dotdot hdir), hlinks⟩
    · have hnames : names (push rooted (stack rooted ps) x) = names (stack rooted ps) ++ [x] := by
        rw [push_name hx, names, List.reverse_cons, List.filter_append,
          List.filter_singleton, decide_eq_true hx.2.1]
        rfl
      have hmem' : ∀ y ∈ names (stack rooted ps) ++ [x], y ∈ S.alphabet :=
        List.forall_mem_append.mpr ⟨hmem, List.forall_mem_singleton.mpr (halpha x hlast hx)⟩
      obtain ⟨links', hstep, hlinks'⟩ := stepPiece_jump hmem' (by omega) hlinks
      rw [hnames]
      refine ⟨hmem', ?_, links', hgo hstep, hlinks'⟩
      rw [List.length_append, List.length_singleton]
      omega

/-- One piece below the target. -/
theorem stepPiece_below {x : Text} (hslash : '/' ∉ x)
    (halpha : IsName x → x ∈ S.alphabet ∧ x ≠ S.q) {j : ℕ} {ns : Location} (links : ℕ)
    (hns : ∀ y ∈ ns, y ∈ S.alphabet ∧ y ≠ S.q) (hj : 1 < j)
    (hlen : j + ns.length + 1 ≤ S.bound) :
    ∃ j' ns', S.linkTree.stepPiece f (List.replicate j S.q ++ ns, links) x
        = .ok (List.replicate j' S.q ++ ns', links)
      ∧ j ≤ j' + 1 ∧ j' ≤ j ∧ (∀ y ∈ ns', y ∈ S.alphabet ∧ y ≠ S.q)
      ∧ j' + ns'.length ≤ j + ns.length + 1 := by
  have hdir : S.linkTree.node (List.replicate j S.q ++ ns) = some .dir :=
    dir_of_q (by omega) (fun y hy => (hns y hy).1) (by omega)
  rcases piece_cases hslash with hx | rfl | hx
  · exact ⟨j, ns, Filesystem.stepPiece_noise hx hdir, by omega, le_rfl, hns, by omega⟩
  · have hstep := Filesystem.stepPiece_dotdot (f := f) (p := (_, links)) hdir
    rcases List.eq_nil_or_concat ns with rfl | ⟨ns, y, rfl⟩
    · obtain ⟨j, rfl⟩ := Nat.exists_eq_succ_of_ne_zero (show j ≠ 0 by omega)
      refine ⟨j, [], hstep.trans (congrArg (fun loc => Except.ok (loc, links)) ?_), le_rfl,
        Nat.le_succ j, hns, by omega⟩
      show List.dropLast _ = _
      rw [List.append_nil, List.append_nil, List.replicate_succ', List.dropLast_concat]
    · rw [List.concat_eq_append, List.forall_mem_append] at hns
      rw [List.length_concat] at hlen ⊢
      refine ⟨j, ns, hstep.trans (congrArg (fun loc => Except.ok (loc, links)) ?_), by omega,
        le_rfl, hns.1, by omega⟩
      show List.dropLast _ = _
      rw [List.concat_eq_append, ← List.append_assoc, List.dropLast_concat]
  · have hns' : ∀ y ∈ ns ++ [x], y ∈ S.alphabet ∧ y ≠ S.q :=
      List.forall_mem_append.mpr ⟨hns, List.forall_mem_singleton.mpr (halpha hx)⟩
    have hcount : (ns ++ [x]).length = ns.length + 1 := by
      rw [List.length_append, List.length_singleton]
    have hnew : S.linkTree.node (List.replicate j S.q ++ (ns ++ [x])) = some .dir :=
      dir_of_q (by omega) (fun y hy => (hns' y hy).1) (by omega)
    refine ⟨j, ns ++ [x], ?_, by omega, le_rfl, hns', by omega⟩
    rw [← List.append_assoc] at hnew ⊢
    exact stepPiece_dir hx hdir hnew

/-- **A walk below the target stays there**, as long as it has no more pieces than the
target is deep. -/
theorem walk_below : ∀ {ps : List Text} {j : ℕ} (ns : Location) (links : ℕ),
    (∀ x ∈ ps, '/' ∉ x) → (∀ x ∈ ps, IsName x → x ∈ S.alphabet ∧ x ≠ S.q) →
    (∀ x ∈ ns, x ∈ S.alphabet ∧ x ≠ S.q) → ps.length < j → j + ns.length + ps.length ≤ S.bound →
    ∃ j' ns', S.linkTree.walk f ps (List.replicate j S.q ++ ns, links)
        = .ok (List.replicate j' S.q ++ ns', links)
      ∧ 0 < j' ∧ j' ≤ j ∧ (∀ x ∈ ns', x ∈ S.alphabet ∧ x ≠ S.q) ∧ j' + ns'.length ≤ S.bound := by
  intro ps
  induction ps with
  | nil =>
    intro j ns links _ _ hns hj hlen
    exact ⟨j, ns, rfl, hj, le_rfl, hns, by rw [List.length_nil] at hlen; omega⟩
  | cons x ps ih =>
    intro j ns links hslash halpha hns hj hlen
    rw [List.length_cons] at hj hlen
    rw [List.forall_mem_cons] at hslash halpha
    obtain ⟨j₁, ns₁, hstep, hle, hge, hns₁, hlen₁⟩ :=
      stepPiece_below (f := f) (j := j) hslash.1 halpha.1 links hns (by omega) (by omega)
    obtain ⟨j', ns', hwalk, hpos, hle', hns', hlen'⟩ :=
      ih (j := j₁) ns₁ links hslash.2 halpha.2 hns₁ (by omega) (by omega)
    refine ⟨j', ns', ?_, hpos, hle'.trans hge, hns', hlen'⟩
    show (S.linkTree.stepPiece f _ x).bind _ = _
    rw [hstep]
    exact hwalk

end Walk

/-! ## A path and its normal form part -/

/-- A name that is none of some pieces. -/
def fresh (ps : List Text) : Text := List.replicate ((ps.map List.length).sum + 1) 'q'

theorem fresh_isName (ps : List Text) : IsName (fresh ps) := by
  have hmem : 'q' ∈ fresh ps := List.mem_replicate.mpr ⟨Nat.succ_ne_zero _, rfl⟩
  refine ⟨?_, ?_, fun h => absurd (List.eq_of_mem_replicate h) (by decide)⟩
  · rintro (h | h) <;> (rw [h] at hmem; exact absurd hmem (by decide))
  · intro h
    rw [h] at hmem
    exact absurd hmem (by decide)

theorem fresh_not_mem (ps : List Text) : fresh ps ∉ ps := by
  intro h
  have hle := List.le_sum_of_mem (List.mem_map_of_mem (f := List.length) h)
  rw [fresh, List.length_replicate] at hle
  omega

/-- The names on a stack are names of the pieces. -/
theorem mem_names_stack {rooted : Bool} {ps : List Text} (hps : ∀ x ∈ ps, '/' ∉ x) {x : Text}
    (hx : x ∈ names (stack rooted ps)) : x ∈ ps ∧ IsName x := by
  obtain ⟨hmem, hdot⟩ := List.mem_filter.mp hx
  rw [List.mem_reverse] at hmem
  rcases mem_stack hps x hmem with hname | ⟨-, h⟩
  · exact ⟨mem_of_mem_stack x hmem, hname⟩
  · exact absurd h (of_decide_eq_true hdot)

/-- The tree in which the first name that is cancelled is the link. -/
def forkShape (p : Text) (pre : List Text) (hpre : ∀ x ∈ pre, x ∈ pieces p)
    (hlink : names (stack (isAbsolute p) pre) ≠ []) : Shape where
  alphabet := fresh (pieces p) :: (pieces p).filter (fun x => decide (IsName x))
  isName x hx := by
    rcases List.mem_cons.mp hx with rfl | hx
    · exact fresh_isName _
    · exact of_decide_eq_true (List.mem_filter.mp hx).2
  q := fresh (pieces p)
  q_mem := List.mem_cons_self
  link := names (stack (isAbsolute p) pre)
  link_ne_nil := hlink
  link_mem x hx := by
    obtain ⟨hmem, hname⟩ := mem_names_stack (fun y hy => slash_not_mem_piece y (hpre y hy)) hx
    exact List.mem_cons_of_mem _ (List.mem_filter.mpr ⟨hpre x hmem, decide_eq_true hname⟩)
  q_not_mem hq := fresh_not_mem (pieces p)
    (hpre _ (mem_names_stack (fun y hy => slash_not_mem_piece y (hpre y hy)) hq).1)
  depth := (pieces p).length + 1
  depth_pos := Nat.succ_pos _
  bound := 2 * (pieces p).length + 1 + (pieces (lexicallyNormal p)).length

/-- What is reached in the tree without a name of the target is not below it. -/
theorem jump_ne {S : Shape} {loc ns : Location} {j : ℕ} (hloc : S.q ∉ loc) (hns : S.q ∉ ns)
    (hj : 0 < j) (hdepth : j < S.depth) : List.replicate j S.q ++ ns ≠ jump S loc := by
  intro h
  unfold jump at h
  split at h
  · rw [show S.depth = j + (S.depth - j) by omega, List.replicate_add, List.append_assoc] at h
    have heq := List.append_cancel_left h
    refine hns (heq ▸ List.mem_append_left _ (List.mem_replicate.mpr ⟨by omega, rfl⟩))
  · refine hloc (h ▸ List.mem_append_left _ (List.mem_replicate.mpr ⟨by omega, rfl⟩))

/-- **Where a dot-dot cancels a name there is a file system in which the path and its
normal form lead to two directories**, the one without a link in it. -/
theorem exists_fork {p : Text} (hp : p ≠ []) (hcancels : Cancels (isAbsolute p) (pieces p)) :
    ∃ (fs : Filesystem) (loc loc' : Location), fs.resolve [] p = .ok loc
      ∧ fs.node loc = some .dir ∧ (∀ x t, fs.node (loc ++ [x]) ≠ some (.link t))
      ∧ fs.resolve [] (lexicallyNormal p) = .ok loc' ∧ loc ≠ loc' := by
  obtain ⟨pre, post, top, rest, hps, hst, htop, hfirst⟩ := hcancels.first
  have hpre : ∀ x ∈ pre, x ∈ pieces p := fun x hx => hps ▸ List.mem_append_left _ hx
  have hpost : ∀ x ∈ post, x ∈ pieces p :=
    fun x hx => hps ▸ List.mem_append_right _ (List.mem_cons_of_mem _ hx)
  have hlen : (pieces p).length = pre.length + post.length + 1 := by
    rw [hps, List.length_append, List.length_cons]
    omega
  have hlink : names (stack (isAbsolute p) pre) ≠ [] := by
    rw [hst, names]
    refine List.ne_nil_of_mem (a := top) (List.mem_filter.mpr ⟨?_, decide_eq_true htop⟩)
    exact List.mem_reverse.mpr List.mem_cons_self
  set S := forkShape p pre hpre hlink with hS
  have hdepth : S.depth = (pieces p).length + 1 := rfl
  have hbound : S.bound = 2 * (pieces p).length + 1 + (pieces (lexicallyNormal p)).length := rfl
  have halpha : ∀ x ∈ pieces p, IsName x → x ∈ S.alphabet ∧ x ≠ S.q := by
    refine fun x hx hname => ⟨List.mem_cons_of_mem _ (List.mem_filter.mpr
      ⟨hx, decide_eq_true hname⟩), fun h => ?_⟩
    exact fresh_not_mem (pieces p) ((show x = fresh (pieces p) from h) ▸ hx)
  have hstart : ∀ q : Text, Filesystem.start [] q = ([], Filesystem.maxLinks) := by
    intro q
    rw [Filesystem.start, ite_self]
  -- the path: to the link, out of its target, and on below it
  obtain ⟨-, -, links, hwalk, -⟩ := walk_linkTree (S := S) hfirst
    (fun x hx => slash_not_mem_piece x (hpre x hx)) (fun x hx hname => (halpha x (hpre x hx) hname).1)
    (by omega)
  have hjump : jump S (names (stack (isAbsolute p) pre)) = List.replicate S.depth S.q := by
    unfold jump
    rw [show names (stack (isAbsolute p) pre) = S.link from rfl, if_pos List.prefix_rfl,
      List.drop_length, List.append_nil]
  have hdir : S.linkTree.node (List.replicate S.depth S.q) = some .dir := by
    rw [← List.append_nil (List.replicate _ _)]
    exact dir_of_q S.depth_pos (List.forall_mem_nil _) (by rw [List.length_nil]; omega)
  obtain ⟨j, ns, hbelow, hj, hle, hns, hcount⟩ := walk_below (S := S)
    (f := S.linkTree.follow Filesystem.maxLinks) (j := (pieces p).length) [] links
    (fun x hx => slash_not_mem_piece x (hpost x hx)) (fun x hx => halpha x (hpost x hx))
    (List.forall_mem_nil _) (by omega) (by rw [List.length_nil]; omega)
  have hpath : S.linkTree.resolve [] p = .ok (List.replicate j S.q ++ ns) := by
    refine Filesystem.resolve_ok_iff.mpr ⟨hp, links, ?_⟩
    rw [hstart, hps]
    refine Filesystem.walk_append_ok.mpr ⟨_, hjump ▸ hwalk, ?_⟩
    show (S.linkTree.stepPiece _ _ _).bind _ = _
    rw [Filesystem.stepPiece_dotdot hdir, hdepth, List.replicate_succ', List.dropLast_concat]
    rw [List.append_nil] at hbelow
    exact hbelow
  -- the normal form: straight along its names
  have hnormal : ∀ x ∈ pieces (lexicallyNormal p), IsName x → x ∈ pieces p :=
    fun x hx hname => mem_pieces_of_lexicallyNormal hp hx hname
  obtain ⟨-, -, links', hwalk', -⟩ := walk_linkTree (S := S)
    (not_cancels_lexicallyNormal hp (isAbsolute p)) slash_not_mem_piece
    (fun x hx hname => (halpha x (hnormal x hx hname) hname).1) (by omega)
  refine ⟨S.linkTree, _, _, hpath, dir_of_q hj (fun x hx => (hns x hx).1) hcount,
    fun x t hlink' => ?_, Filesystem.resolve_ok_iff.mpr
      ⟨lexicallyNormal_ne_nil hp, links', by rw [hstart]; exact hwalk'⟩,
    jump_ne (fun hq => ?_) (fun hq => (hns _ hq).2 rfl) hj (by omega)⟩
  · have heq : List.replicate j S.q ++ ns ++ [x] = S.link := by
      have hnode : S.nodeAt (List.replicate j S.q ++ ns ++ [x]) = some (.link t) := hlink'
      unfold Shape.nodeAt at hnode
      split at hnode
      · split at hnode
        · assumption
        · split at hnode
          · exact nomatch hnode
          · exact nomatch hnode
      · exact nomatch hnode
    rw [List.append_assoc] at heq
    exact not_prefix_of_q hj (ns ++ [x]) (by rw [heq])
  · obtain ⟨hmem, hname⟩ := mem_names_stack slash_not_mem_piece hq
    exact fresh_not_mem (pieces p) (hnormal _ hmem hname)

end LinkTree
