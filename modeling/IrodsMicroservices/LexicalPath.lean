import IrodsMicroservices.Text

/-!
# Lexical paths

A path as the C++ library normalizes it, without a look at any file system. A
path is cut at its slashes into pieces; empty pieces and dots mean nothing, and
a dot-dot cancels the name before it (`LexicalPath.push`). Above the root there
is only the root, so a dot-dot there means nothing either, and a relative path
keeps those that have nothing to cancel.

The rules are those of C++17 for a system without root names.

* A normal form is put together from its segments and perhaps a slash
  (`normalText`), and falls into the same pieces again (`pieces_normalText`).
* The segments of an absolute normal form are names (`isName_of_mem_stack`): no
  dot-dot is left.
-/

namespace LexicalPath

/-- What is between the slashes of a path. -/
def pieces (p : Text) : List Text := p.splitOn '/'

/-- The path starts at the root. -/
def isAbsolute (p : Text) : Bool := p.head? == some '/'

/-- A piece that stays where it is. -/
def IsNoise (x : Text) : Prop := x = [] ∨ x = ".".toList

instance (x : Text) : Decidable (IsNoise x) := inferInstanceAs (Decidable (_ ∨ _))

/-- A piece that names something in a directory. -/
def IsName (x : Text) : Prop := ¬ IsNoise x ∧ x ≠ "..".toList ∧ '/' ∉ x

instance (x : Text) : Decidable (IsName x) := inferInstanceAs (Decidable (_ ∧ _))

/-- One more piece on a stack of segments. -/
def push (rooted : Bool) (stack : List Text) (x : Text) : List Text :=
  if IsNoise x then stack
  else if x = "..".toList then
    match stack with
    | [] => if rooted then [] else [x]
    | top :: rest => if top = "..".toList then x :: stack else rest
  else x :: stack

/-- The segments that are left of some pieces, the last one on top. -/
def stack (rooted : Bool) (ps : List Text) : List Text := ps.foldl (push rooted) []

/-- The segments that are left of a path. -/
def normalSegments (p : Text) : List Text := (stack (isAbsolute p) (pieces p)).reverse

/-- A path that ends in one of these is a directory. -/
def endsInDir (ps : List Text) : Bool :=
  match ps.getLast? with
  | none => false
  | some x => decide (IsNoise x ∨ x = "..".toList)

/-- A path put together from segments. -/
def normalText (rooted : Bool) (segs : List Text) (slash : Bool) : Text :=
  (if rooted then ['/'] else []) ++ ['/'].intercalate segs ++ if slash then ['/'] else []

/-- Whether the normal form of a path ends in a slash: not after a dot-dot. -/
def endsInSlash (p : Text) : Bool :=
  let segs := stack (isAbsolute p) (pieces p)
  endsInDir (pieces p) && decide (segs ≠ [] ∧ segs.head? ≠ some "..".toList)

/-- **`lexically_normal`.** -/
def lexicallyNormal (p : Text) : Text :=
  if p = [] then []
  else if normalText (isAbsolute p) (normalSegments p) (endsInSlash p) = [] then ".".toList
  else normalText (isAbsolute p) (normalSegments p) (endsInSlash p)

example : lexicallyNormal "/a/./b/../../../c//".toList = "/c/".toList := by decide

/-- **The segments of a path**, with the root directory first where there is one. -/
def segments (p : Text) : List Text :=
  (if isAbsolute p then [['/']] else []) ++ (pieces p).filter (fun x => decide (x ≠ []))

/-! ## Pieces -/

theorem pieces_ne_nil (p : Text) : pieces p ≠ [] := List.splitOn_ne_nil _ _

theorem pieces_append (p q : Text) : pieces (p ++ '/' :: q) = pieces p ++ pieces q :=
  List.splitOn_append_cons_self p q

theorem pieces_of_name {p : Text} (h : '/' ∉ p) : pieces p = [p] :=
  List.splitOn_eq_singleton h

/-- An absolute path starts with an empty piece. -/
theorem pieces_absolute {p : Text} (h : isAbsolute p = true) :
    ∃ q, p = '/' :: q ∧ pieces p = [] :: pieces q := by
  cases p with
  | nil => exact nomatch h
  | cons c q =>
    obtain rfl : c = '/' := Option.some.inj (beq_iff_eq.mp h)
    exact ⟨q, rfl, pieces_append [] q⟩

/-- No piece holds a slash. -/
theorem slash_not_mem_piece : ∀ {p : Text}, ∀ x ∈ pieces p, '/' ∉ x := by
  intro p
  induction p with
  | nil =>
    intro x hx
    rw [List.mem_singleton.mp (show x ∈ [[]] from hx)]
    exact List.not_mem_nil
  | cons c p ih =>
    intro x hx
    unfold pieces at hx
    rw [List.splitOn_cons_eq_if_modifyHead] at hx
    split at hx
    · rcases List.mem_cons.mp hx with rfl | hx
      · exact List.not_mem_nil
      · exact ih x hx
    · rename_i hc
      obtain ⟨y, ys, hys⟩ := List.exists_cons_of_ne_nil (pieces_ne_nil p)
      rw [show p.splitOn '/' = y :: ys from hys, List.modifyHead_cons] at hx
      rcases List.mem_cons.mp hx with rfl | hx
      · rw [List.mem_cons, not_or]
        refine ⟨fun h => hc (beq_iff_eq.mpr h.symm), ih y (hys ▸ List.mem_cons_self)⟩
      · exact ih x (hys ▸ List.mem_cons_of_mem _ hx)

theorem pieces_intercalate {segs : List Text} (h : ∀ x ∈ segs, '/' ∉ x) :
    pieces (['/'].intercalate segs) = if segs = [] then [[]] else segs := by
  split
  · rename_i hsegs
    rw [hsegs]
    rfl
  · rename_i hsegs
    exact List.splitOn_intercalate '/' h hsegs

/-- **The pieces of a path that has been put together.** -/
theorem pieces_normalText (rooted : Bool) {segs : List Text} (h : ∀ x ∈ segs, '/' ∉ x)
    (slash : Bool) :
    pieces (normalText rooted segs slash)
      = (if rooted then [[]] else []) ++ (if segs = [] then [[]] else segs)
        ++ if slash then [[]] else [] := by
  unfold normalText
  have hslash : pieces (['/'].intercalate segs ++ if slash then ['/'] else [])
      = (if segs = [] then [[]] else segs) ++ if slash then [[]] else [] := by
    cases slash with
    | false =>
      show pieces (_ ++ []) = _ ++ []
      rw [List.append_nil, List.append_nil, pieces_intercalate h]
    | true =>
      show pieces (_ ++ '/' :: []) = _ ++ pieces []
      rw [pieces_append, pieces_intercalate h]
  rw [List.append_assoc, List.append_assoc, ← hslash]
  cases rooted with
  | false => rfl
  | true => exact pieces_append [] _

/-! ## The stack -/

theorem stack_append (rooted : Bool) (ps qs : List Text) :
    stack rooted (ps ++ qs) = qs.foldl (push rooted) (stack rooted ps) := List.foldl_append ..

@[simp] theorem stack_concat (rooted : Bool) (ps : List Text) (x : Text) :
    stack rooted (ps ++ [x]) = push rooted (stack rooted ps) x := stack_append ..

theorem push_noise {x : Text} (h : IsNoise x) (rooted : Bool) (st : List Text) :
    push rooted st x = st := if_pos h

theorem push_name {x : Text} (h : IsName x) (rooted : Bool) (st : List Text) :
    push rooted st x = x :: st := by
  unfold push
  rw [if_neg h.1, if_neg h.2.1]

theorem not_isNoise_dotdot : ¬ IsNoise "..".toList := by decide

/-- What a dot-dot does to a stack. -/
theorem push_dotdot (rooted : Bool) (st : List Text) :
    push rooted st "..".toList = match st with
      | [] => if rooted then [] else ["..".toList]
      | top :: rest => if top = "..".toList then "..".toList :: st else rest := by
  unfold push
  rw [if_neg not_isNoise_dotdot, if_pos rfl]

/-- A piece is noise, a dot-dot or a name. -/
theorem piece_cases {x : Text} (h : '/' ∉ x) : IsNoise x ∨ x = "..".toList ∨ IsName x := by
  by_cases hnoise : IsNoise x
  · exact .inl hnoise
  · by_cases hdot : x = "..".toList
    · exact .inr (.inl hdot)
    · exact .inr (.inr ⟨hnoise, hdot, h⟩)

/-- **What is left are names**, and in a relative path dot-dots. -/
theorem mem_stack {rooted : Bool} {ps : List Text} (h : ∀ x ∈ ps, '/' ∉ x) :
    ∀ x ∈ stack rooted ps, IsName x ∨ rooted = false ∧ x = "..".toList := by
  induction ps using List.reverseRecOn with
  | nil => exact fun x hx => absurd hx List.not_mem_nil
  | append_singleton ps y ih =>
    have ih := ih (fun x hx => h x (List.mem_append_left _ hx))
    intro x hx
    rw [stack_concat] at hx
    rcases piece_cases (h y (List.mem_append_right _ (List.mem_singleton_self y))) with
      hy | rfl | hy
    · rw [push_noise hy] at hx
      exact ih x hx
    · rw [push_dotdot] at hx
      split at hx
      · cases rooted with
        | true => exact absurd hx List.not_mem_nil
        | false => exact .inr ⟨rfl, List.mem_singleton.mp hx⟩
      · rename_i top rest hst
        split at hx
        · rename_i htop
          rcases List.mem_cons.mp hx with rfl | hx
          · exact htop ▸ ih top (hst ▸ List.mem_cons_self)
          · exact ih x hx
        · exact ih x (hst ▸ List.mem_cons_of_mem _ hx)
    · rw [push_name hy] at hx
      rcases List.mem_cons.mp hx with rfl | hx
      · exact .inl hy
      · exact ih x hx

/-- **The segments of an absolute path are names.** -/
theorem isName_of_mem_stack {ps : List Text} (h : ∀ x ∈ ps, '/' ∉ x) :
    ∀ x ∈ stack true ps, IsName x := by
  intro x hx
  rcases mem_stack h x hx with h | ⟨h, -⟩
  · exact h
  · exact nomatch h

theorem mem_normalSegments {p x : Text} (hx : x ∈ normalSegments p) :
    IsName x ∨ isAbsolute p = false ∧ x = "..".toList :=
  mem_stack slash_not_mem_piece x (List.mem_reverse.mp hx)

theorem slash_not_mem_normalSegments {p : Text} : ∀ x ∈ normalSegments p, '/' ∉ x := by
  intro x hx
  rcases mem_normalSegments hx with h | ⟨-, rfl⟩
  · exact h.2.2
  · decide

theorem ne_nil_of_mem_normalSegments {p : Text} : ∀ x ∈ normalSegments p, x ≠ [] := by
  intro x hx
  rcases mem_normalSegments hx with h | ⟨-, rfl⟩
  · exact fun hnil => h.1 (.inl hnil)
  · decide

/-- The segments that are left come from the pieces. -/
theorem mem_of_mem_stack {rooted : Bool} {ps : List Text} : ∀ x ∈ stack rooted ps, x ∈ ps := by
  induction ps using List.reverseRecOn with
  | nil => exact fun x hx => hx
  | append_singleton ps y ih =>
    intro x hx
    rw [List.mem_append, List.mem_singleton]
    rw [stack_concat] at hx
    unfold push at hx
    split at hx
    · exact .inl (ih x hx)
    · split at hx
      · split at hx
        · split at hx
          · exact absurd hx List.not_mem_nil
          · exact .inr (List.mem_singleton.mp hx)
        · rename_i hst
          split at hx
          · exact (List.mem_cons.mp hx).symm.imp_left (ih x)
          · exact .inl (ih x (hst ▸ List.mem_cons_of_mem _ hx))
      · exact (List.mem_cons.mp hx).symm.imp_left (ih x)

/-- **Dot-dots are left only below the names.** -/
theorem stack_shape (rooted : Bool) (ps : List Text) :
    ∃ ns m, stack rooted ps = ns ++ List.replicate m "..".toList ∧ "..".toList ∉ ns := by
  induction ps using List.reverseRecOn with
  | nil => exact ⟨[], 0, rfl, List.not_mem_nil⟩
  | append_singleton ps y ih =>
    obtain ⟨ns, m, hst, hns⟩ := ih
    rw [stack_concat]
    by_cases hnoise : IsNoise y
    · rw [push_noise hnoise]
      exact ⟨ns, m, hst, hns⟩
    · by_cases hdot : y = "..".toList
      · subst hdot
        rw [push_dotdot, hst]
        cases ns with
        | nil =>
          rw [List.nil_append]
          cases m with
          | zero =>
            cases rooted with
            | true => exact ⟨[], 0, rfl, List.not_mem_nil⟩
            | false => exact ⟨[], 1, rfl, List.not_mem_nil⟩
          | succ m => exact ⟨[], m + 2, if_pos rfl, List.not_mem_nil⟩
        | cons top ns =>
          rw [List.mem_cons, not_or] at hns
          exact ⟨ns, m, if_neg (Ne.symm hns.1), hns.2⟩
      · refine ⟨y :: ns, m, ?_, ?_⟩
        · unfold push
          rw [if_neg hnoise, if_neg hdot, hst]
          rfl
        · rw [List.mem_cons, not_or]
          exact ⟨Ne.symm hdot, hns⟩

/-- A dot-dot of the pieces cancels a name before it. -/
def Cancels (rooted : Bool) (ps : List Text) : Prop :=
  ∃ pre post top rest, ps = pre ++ "..".toList :: post ∧ stack rooted pre = top :: rest
    ∧ top ≠ "..".toList

/-- There is a first dot-dot that cancels a name. -/
theorem Cancels.first {rooted : Bool} {ps : List Text} (h : Cancels rooted ps) :
    ∃ pre post top rest, ps = pre ++ "..".toList :: post ∧ stack rooted pre = top :: rest
      ∧ top ≠ "..".toList ∧ ¬ Cancels rooted pre := by
  induction ps using List.reverseRecOn with
  | nil =>
    obtain ⟨pre, post, _, _, heq, -⟩ := h
    exact absurd heq (by simp)
  | append_singleton ps x ih =>
    by_cases hps : Cancels rooted ps
    · obtain ⟨pre, post, top, rest, rfl, hfirst⟩ := ih hps
      exact ⟨pre, post ++ [x], top, rest, by simp, hfirst⟩
    · obtain ⟨pre, post, top, rest, heq, hst, htop⟩ := h
      rcases List.eq_nil_or_concat post with rfl | ⟨post, y, rfl⟩
      · obtain ⟨rfl, -⟩ := List.append_inj' heq rfl
        exact ⟨ps, [], top, rest, heq, hst, htop, hps⟩
      · refine absurd ⟨pre, post, top, rest, ?_, hst, htop⟩ hps
        rw [List.concat_eq_append, ← List.cons_append, ← List.append_assoc] at heq
        exact (List.append_inj' heq rfl).1

/-- Where something is cancelled there is a slash. -/
theorem Cancels.slash_mem {rooted : Bool} {p : Text} (h : Cancels rooted (pieces p)) : '/' ∈ p := by
  by_contra hslash
  obtain ⟨pre, post, top, rest, hps, hst, -⟩ := h
  rw [pieces_of_name hslash] at hps
  cases pre with
  | nil => exact nomatch hst
  | cons x pre => exact absurd (congrArg List.length hps) (by simp)

/-- Where no dot-dot comes after a name, none cancels one. -/
theorem not_cancels_of_pairwise {rooted : Bool} {ps : List Text} (hps : ∀ x ∈ ps, '/' ∉ x)
    (h : ps.Pairwise (fun y x => IsName y → x ≠ "..".toList)) : ¬ Cancels rooted ps := by
  rintro ⟨pre, post, top, rest, rfl, hst, htop⟩
  have hmem : top ∈ stack rooted pre := hst ▸ List.mem_cons_self
  have hname : IsName top := by
    rcases mem_stack (fun x hx => hps x (List.mem_append_left _ hx)) top hmem with h | ⟨-, h⟩
    · exact h
    · exact absurd h htop
  exact (List.pairwise_append.mp h).2.2 top (mem_of_mem_stack top hmem) _ List.mem_cons_self
    hname rfl

/-! ## The normal form -/

theorem normalText_rooted (segs : List Text) (slash : Bool) :
    normalText true segs slash
      = '/' :: (['/'].intercalate segs ++ if slash then ['/'] else []) := rfl

/-- The normal form of an absolute path. -/
theorem lexicallyNormal_of_absolute {p : Text} (h : isAbsolute p = true) :
    lexicallyNormal p = normalText true (normalSegments p) (endsInSlash p) := by
  unfold lexicallyNormal
  rw [h, if_neg (by rintro rfl; exact nomatch h), if_neg]
  rw [normalText_rooted]
  exact List.cons_ne_nil _ _

/-- **A normal form starts at the root where the path does.** -/
theorem isAbsolute_lexicallyNormal (p : Text) : isAbsolute (lexicallyNormal p) = isAbsolute p := by
  by_cases h : isAbsolute p = true
  · rw [lexicallyNormal_of_absolute h, h]
    rfl
  · rw [Bool.not_eq_true] at h
    rw [h]
    unfold lexicallyNormal
    split
    · rfl
    · split
      · rfl
      · rename_i hne
        unfold normalText at hne ⊢
        rw [h] at hne ⊢
        rw [if_neg (by simp), List.nil_append] at hne ⊢
        cases hsegs : normalSegments p with
        | nil =>
          have hstack : stack (isAbsolute p) (pieces p) = [] := List.reverse_eq_nil_iff.mp hsegs
          have hslash : endsInSlash p = false := by
            unfold endsInSlash
            rw [hstack]
            simp
          rw [hslash]
          rfl
        | cons x segs =>
          have hx : x ∈ normalSegments p := hsegs ▸ List.mem_cons_self
          obtain ⟨c, cs, rfl⟩ := List.exists_cons_of_ne_nil (ne_nil_of_mem_normalSegments x hx)
          have hc : c ≠ '/' := fun h =>
            slash_not_mem_normalSegments _ hx (h ▸ List.mem_cons_self)
          cases segs with
          | nil =>
            rw [List.intercalate_singleton]
            simp [isAbsolute, hc]
          | cons y segs =>
            rw [List.intercalate_cons_cons]
            simp [isAbsolute, hc]

/-- **The segments of an absolute normal form.** -/
theorem segments_lexicallyNormal {p : Text} (h : isAbsolute p = true) :
    segments (lexicallyNormal p) = ['/'] :: normalSegments p := by
  have hfilter : (normalSegments p).filter (fun x => decide (x ≠ [])) = normalSegments p :=
    List.filter_eq_self.mpr (fun x hx => decide_eq_true (ne_nil_of_mem_normalSegments x hx))
  unfold segments
  rw [isAbsolute_lexicallyNormal, h, if_pos rfl, lexicallyNormal_of_absolute h,
    pieces_normalText true slash_not_mem_normalSegments]
  refine congrArg (['/'] :: ·) ?_
  show List.filter _ _ = _
  rw [List.filter_append, List.filter_append]
  have hmiddle : (if normalSegments p = [] then [[]] else normalSegments p).filter
      (fun x => decide (x ≠ [])) = normalSegments p := by
    split
    · rename_i hsegs
      rw [hsegs]
      rfl
    · exact hfilter
  rw [hmiddle]
  cases endsInSlash p <;> exact List.append_nil _

theorem lexicallyNormal_ne_nil {p : Text} (hp : p ≠ []) : lexicallyNormal p ≠ [] := by
  unfold lexicallyNormal
  rw [if_neg hp]
  split
  · decide
  · assumption

/-- **The pieces of a normal form** are its segments, and noise before and after them –
after them only where the path is a directory. -/
theorem pieces_lexicallyNormal {p : Text} (hp : p ≠ []) :
    ∃ before after, pieces (lexicallyNormal p) = before ++ normalSegments p ++ after
      ∧ (∀ x ∈ before, IsNoise x) ∧ (∀ x ∈ after, IsNoise x)
      ∧ (after ≠ [] → endsInDir (pieces p) = true) := by
  have hpieces := pieces_normalText (isAbsolute p) (slash_not_mem_normalSegments (p := p))
    (endsInSlash p)
  have hnoise : IsNoise [] := .inl rfl
  unfold lexicallyNormal
  rw [if_neg hp]
  split
  · rename_i hnil
    rw [hnil] at hpieces
    have hempty : normalSegments p = [] := by
      by_contra hne
      rw [if_neg hne] at hpieces
      obtain ⟨x, xs, hxs⟩ := List.exists_cons_of_ne_nil hne
      have hx : x ∈ normalSegments p := hxs ▸ List.mem_cons_self
      have hmem : x ∈ pieces [] := by
        rw [hpieces]
        exact List.mem_append_left _ (List.mem_append_right _ hx)
      exact ne_nil_of_mem_normalSegments x hx (List.mem_singleton.mp hmem)
    rw [hempty]
    exact ⟨[".".toList], [], rfl, List.forall_mem_singleton.mpr (.inr rfl),
      List.forall_mem_nil _, fun h => absurd rfl h⟩
  · rw [hpieces]
    refine ⟨(if isAbsolute p then [[]] else []) ++ (if normalSegments p = [] then [[]] else []),
      if endsInSlash p then [[]] else [], ?_, ?_, ?_, fun hafter => ?_⟩
    · by_cases hnil : normalSegments p = []
      · rw [if_pos hnil, if_pos hnil, hnil, List.append_nil]
      · rw [if_neg hnil, if_neg hnil, List.append_nil]
    · intro x hx
      rcases List.mem_append.mp hx with hx | hx <;> split at hx
      · exact List.mem_singleton.mp hx ▸ hnoise
      · exact absurd hx List.not_mem_nil
      · exact List.mem_singleton.mp hx ▸ hnoise
      · exact absurd hx List.not_mem_nil
    · intro x hx
      split at hx
      · exact List.mem_singleton.mp hx ▸ hnoise
      · exact absurd hx List.not_mem_nil
    · by_contra hend
      rw [Bool.not_eq_true] at hend
      have hslash : endsInSlash p = false := by
        unfold endsInSlash
        rw [hend]
        rfl
      rw [hslash] at hafter
      exact hafter rfl

/-- The names of a normal form are names of the path. -/
theorem mem_pieces_of_lexicallyNormal {p x : Text} (hp : p ≠ [])
    (hx : x ∈ pieces (lexicallyNormal p)) (hname : IsName x) : x ∈ pieces p := by
  obtain ⟨before, after, hpieces, hbefore, hafter, -⟩ := pieces_lexicallyNormal hp
  rw [hpieces] at hx
  rcases List.mem_append.mp hx with hx | hx
  · rcases List.mem_append.mp hx with hx | hx
    · exact absurd (hbefore x hx) hname.1
    · exact mem_of_mem_stack x (List.mem_reverse.mp hx)
  · exact absurd (hafter x hx) hname.1

/-- **In a normal form no name is cancelled.** -/
theorem not_cancels_lexicallyNormal {p : Text} (hp : p ≠ []) (rooted : Bool) :
    ¬ Cancels rooted (pieces (lexicallyNormal p)) := by
  refine not_cancels_of_pairwise slash_not_mem_piece ?_
  obtain ⟨before, after, hpieces, hbefore, hafter, -⟩ := pieces_lexicallyNormal hp
  obtain ⟨ns, m, hst, hns⟩ := stack_shape (isAbsolute p) (pieces p)
  have hsegs : normalSegments p = List.replicate m "..".toList ++ ns.reverse := by
    rw [normalSegments, hst, List.reverse_append, List.reverse_replicate]
  have hdot : ∀ {xs : List Text}, (∀ x ∈ xs, IsNoise x) → ∀ x ∈ xs, x ≠ "..".toList := by
    rintro xs hxs x hx rfl
    exact not_isNoise_dotdot (hxs _ hx)
  rw [hpieces, hsegs]
  refine List.pairwise_append.mpr ⟨List.pairwise_append.mpr ⟨?_, List.pairwise_append.mpr
    ⟨?_, ?_, ?_⟩, ?_⟩, ?_, fun y _ x hx _ => hdot hafter x hx⟩
  · exact List.pairwise_of_forall_mem_list (fun y hy x _ hname => absurd (hbefore y hy) hname.1)
  · refine List.pairwise_of_forall_mem_list (fun y hy x _ hname => ?_)
    exact absurd (List.eq_of_mem_replicate hy) hname.2.1
  · refine List.pairwise_of_forall_mem_list (fun y _ x hx _ h => ?_)
    exact hns (h ▸ List.mem_reverse.mp hx)
  · intro y hy x _ hname
    exact absurd (List.eq_of_mem_replicate hy) hname.2.1
  · exact fun y hy x _ hname => absurd (hbefore y hy) hname.1
  · exact List.pairwise_of_forall_mem_list (fun y _ x hx _ => hdot hafter x hx)

end LexicalPath
