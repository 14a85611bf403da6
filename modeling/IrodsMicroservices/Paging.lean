import Mathlib

/-!
# Reading a list in pages

A server answers a query with a list of rows, and hands the list out in pages:
a request delivers some rows, at least one while any are left, and says whether
the statement stays open for a further request. A statement that stays open
although nothing is left is closed by one more request, which finds no rows. A
request may also fail, and then delivers nothing.

`readPages` is the loop a client runs over such a server: it asks, processes
the rows of the page one by one, and asks again while the statement is open. It
stops at the first request that delivers no rows, whatever the reason.

The server's decisions are read off the state the loop runs in
(`PageServer.outcome`), so that a statement opened while the rows of another
are being processed takes its turn among the requests. Two rules cover all that
is proved of such loops. `readPages_prefix` holds whatever the server does: the
rows processed are a prefix of the rows. `readPages_complete` says when they
are all of them, and is stated against a predicate `Fine` that no failed
request leaves true and that, once true, was true all along
(`PageServer.Guards`): where it holds at the end no request of the loop has
failed.
-/

variable {σ τ α : Type*}

/-- What a server decides about one request. -/
inductive PageOutcome
  /-- It delivers `extra + 1` rows, or what is left of them. With `more` the
  statement stays open even if that exhausts the rows. -/
  | page (extra : ℕ) (more : Bool)
  /-- It fails and delivers nothing. -/
  | fail
  deriving DecidableEq, Repr

/-- **A server of pages**, seen from the state its clients run in. -/
structure PageServer (σ : Type*) where
  /-- What the server decides about the next request. -/
  outcome : σ → PageOutcome
  /-- The bookkeeping of one request: whether the statement was open before it,
  and whether it is open after it. -/
  answered : Bool → Bool → σ → σ

namespace PageServer

/-- The same server, for a client with a local variable beside the state. -/
def withLocal (P : PageServer σ) (τ : Type*) : PageServer (σ × τ) where
  outcome s := P.outcome s.1
  answered a b s := (P.answered a b s.1, s.2)

/-- **`Fine` tells that no request has failed**: it is false after a failed
request, and a request does not make it true. -/
structure Guards (P : PageServer σ) (Fine : σ → Prop) : Prop where
  /-- What holds after a request held before it. -/
  of_answered : ∀ {a b s}, Fine (P.answered a b s) → Fine s
  /-- It does not hold after a failed request. -/
  not_fail : ∀ {a b s}, Fine (P.answered a b s) → P.outcome s ≠ PageOutcome.fail

theorem Guards.withLocal {P : PageServer σ} {Fine : σ → Prop} (h : P.Guards Fine)
    (τ : Type*) : (P.withLocal τ).Guards (fun s => Fine s.1) :=
  ⟨h.of_answered, h.not_fail⟩

end PageServer

/-- The client's loop: `fuel` bounds the number of requests, `isOpen` says
whether the statement is open, `rows` are the rows not yet delivered. -/
def pageLoop (P : PageServer σ) (body : σ → α → σ) : ℕ → Bool → List α → σ → σ
  | 0, _, _, s => s
  | fuel + 1, isOpen, rows, s =>
    match P.outcome s, rows with
    | .fail, _ => P.answered isOpen false s
    -- a page without a row closes the statement, and the loop is left
    | .page _ _, [] => P.answered isOpen false s
    | .page extra more, r :: rest =>
      let left := rest.drop extra
      let stays := more || !left.isEmpty
      let s' := (r :: rest.take extra).foldl body (P.answered isOpen stays s)
      if stays then pageLoop P body fuel true left s' else s'

/-- **Reading all pages of a statement.** Every page that does not end the loop
has a row at least, so one request for each row and a last one are enough. -/
def readPages (P : PageServer σ) (body : σ → α → σ) (rows : List α) (s : σ) : σ :=
  pageLoop P body (rows.length + 1) false rows s

/-! ## The rules of the loop -/

/-- A fold keeps an invariant that speaks of the part of the list already
processed. -/
theorem List.foldl_prefix_rule {body : σ → α → σ} (I : List α → σ → Prop)
    {rows : List α} :
    ∀ {done page : List α} {s : σ},
      (∀ p a s, p ++ [a] <+: rows → I p s → I (p ++ [a]) (body s a)) →
      done ++ page <+: rows → I done s →
      I (done ++ page) (page.foldl body s) := by
  intro done page
  induction page generalizing done with
  | nil =>
    intro s _ _ h
    rw [List.append_nil]
    exact h
  | cons a page ih =>
    intro s hbody hpre h
    have happ : done ++ a :: page = done ++ [a] ++ page := by
      rw [List.append_assoc, List.singleton_append]
    rw [happ] at hpre ⊢
    refine ih hbody hpre (hbody done a s ?_ h)
    exact (List.prefix_append _ _).trans hpre

section Rules

variable {P : PageServer σ} {body : σ → α → σ} (I : List α → σ → Prop)

/-- **Whatever the server does, the rows processed are a prefix of the rows.** -/
theorem pageLoop_prefix {rows : List α}
    (hans : ∀ p s a b, I p s → I p (P.answered a b s))
    (hbody : ∀ p a s, p ++ [a] <+: rows → I p s → I (p ++ [a]) (body s a)) :
    ∀ (fuel : ℕ) (isOpen : Bool) (done left : List α) (s : σ),
      done ++ left = rows → I done s →
      ∃ p, p <+: rows ∧ I p (pageLoop P body fuel isOpen left s) := by
  intro fuel
  induction fuel with
  | zero =>
    rintro isOpen done left s rfl h
    exact ⟨done, List.prefix_append _ _, h⟩
  | succ fuel ih =>
    intro isOpen done left s hrows h
    unfold pageLoop
    split
    · exact ⟨done, hrows ▸ List.prefix_append _ _, hans _ _ _ _ h⟩
    · exact ⟨done, hrows ▸ List.prefix_append _ _, hans _ _ _ _ h⟩
    · rename_i extra more r rest _
      have hsplit : done ++ (r :: rest.take extra) ++ rest.drop extra = rows := by
        rw [List.append_assoc, List.cons_append, List.take_append_drop, hrows]
      have hpre : done ++ (r :: rest.take extra) <+: rows :=
        hsplit ▸ List.prefix_append _ _
      have hpage := List.foldl_prefix_rule I hbody hpre
        (hans _ _ isOpen (more || !(rest.drop extra).isEmpty) h)
      dsimp only
      split
      · exact ih _ _ _ _ hsplit hpage
      · exact ⟨_, hpre, hpage⟩

variable (P body) in
/-- `pageLoop_prefix` for the loop from its start. -/
theorem readPages_prefix (rows : List α) (s : σ)
    (hans : ∀ p s a b, I p s → I p (P.answered a b s))
    (hbody : ∀ p a s, p ++ [a] <+: rows → I p s → I (p ++ [a]) (body s a))
    (h : I [] s) : ∃ p, p <+: rows ∧ I p (readPages P body rows s) :=
  pageLoop_prefix I hans hbody _ _ _ _ _ rfl h

end Rules

section Complete

variable {P : PageServer σ} {body : σ → α → σ} {Fine : σ → Prop}

/-- What is fine after a fold was fine before it. -/
theorem List.foldl_fine (hbody : ∀ s a, Fine (body s a) → Fine s) (page : List α)
    (s : σ) (h : Fine (page.foldl body s)) : Fine s := by
  induction page generalizing s with
  | nil => exact h
  | cons a page ih => exact hbody _ _ (ih _ h)

/-- What is fine after the loop was fine before it. -/
theorem pageLoop_fine (hP : P.Guards Fine) (hfine : ∀ s a, Fine (body s a) → Fine s) :
    ∀ (fuel : ℕ) (isOpen : Bool) (left : List α) (s : σ),
      Fine (pageLoop P body fuel isOpen left s) → Fine s := by
  intro fuel
  induction fuel with
  | zero => exact fun _ _ _ h => h
  | succ fuel ih =>
    intro isOpen left s h
    unfold pageLoop at h
    split at h
    · exact hP.of_answered h
    · exact hP.of_answered h
    · dsimp only at h
      split at h
      · exact hP.of_answered (List.foldl_fine hfine _ _ (ih _ _ _ h))
      · exact hP.of_answered (List.foldl_fine hfine _ _ h)

/-- **Where no request has failed, all rows are processed.** The induction is on
the fuel, which exceeds the number of rows left: a page that leaves the
statement open has taken one of them. -/
theorem pageLoop_complete (I : List α → σ → Prop) {rows : List α}
    (hP : P.Guards Fine) (hfine : ∀ s a, Fine (body s a) → Fine s)
    (hans : ∀ p s a b, I p s → I p (P.answered a b s))
    (hbody : ∀ p a s, p ++ [a] <+: rows → Fine (body s a) → I p s →
      I (p ++ [a]) (body s a)) :
    ∀ (fuel : ℕ) (isOpen : Bool) (done left : List α) (s : σ),
      left.length < fuel → done ++ left = rows → I done s →
      Fine (pageLoop P body fuel isOpen left s) →
      I rows (pageLoop P body fuel isOpen left s) := by
  intro fuel
  induction fuel with
  | zero => exact fun _ _ _ _ h => absurd h (Nat.not_lt_zero _)
  | succ fuel ih =>
    intro isOpen done left s hlen hrows h hok
    unfold pageLoop at hok ⊢
    split at hok
    · rename_i hfail
      exact absurd hfail (hP.not_fail hok)
    · rw [List.append_nil] at hrows
      exact hrows ▸ hans _ _ _ _ h
    · rename_i extra more r rest _
      have hsplit : done ++ (r :: rest.take extra) ++ rest.drop extra = rows := by
        rw [List.append_assoc, List.cons_append, List.take_append_drop, hrows]
      have hpre : done ++ (r :: rest.take extra) <+: rows :=
        hsplit ▸ List.prefix_append _ _
      set stays := more || !(rest.drop extra).isEmpty with hstays
      set s' := (r :: rest.take extra).foldl body (P.answered isOpen stays s) with hs'
      -- the page is processed whole: what is fine after it was fine at each row
      have hpage : Fine s' → I (done ++ (r :: rest.take extra)) s' :=
        List.foldl_prefix_rule (fun p t => (Fine t → I p t))
          (fun p a t hp hI hfa => hbody p a t hp hfa (hI (hfine t a hfa)))
          hpre (fun _ => hans _ _ _ _ h)
      dsimp only at hok ⊢
      split at hok
      · rename_i hst
        rw [if_pos hst]
        refine ih _ _ _ _ ?_ hsplit (hpage (pageLoop_fine hP hfine _ _ _ _ hok)) hok
        refine lt_of_le_of_lt ?_ (Nat.lt_of_succ_lt_succ hlen)
        rw [List.length_drop]
        exact Nat.sub_le _ _
      · rename_i hst
        rw [if_neg hst]
        have hleft : rest.drop extra = [] := by
          rw [Bool.not_eq_true, Bool.or_eq_false_iff] at hst
          simpa using hst.2
        rw [hleft, List.append_nil] at hsplit
        exact hsplit ▸ hpage hok

variable (P body) in
/-- `pageLoop_complete` for the loop from its start. -/
theorem readPages_complete (I : List α → σ → Prop) {rows : List α} {s : σ}
    (hP : P.Guards Fine) (hfine : ∀ s a, Fine (body s a) → Fine s)
    (hans : ∀ p s a b, I p s → I p (P.answered a b s))
    (hbody : ∀ p a s, p ++ [a] <+: rows → Fine (body s a) → I p s →
      I (p ++ [a]) (body s a))
    (h : I [] s) (hok : Fine (readPages P body rows s)) :
    I rows (readPages P body rows s) :=
  pageLoop_complete I hP hfine hans hbody _ _ _ _ _ (Nat.lt_succ_self _) rfl h hok

variable (P body) in
/-- **Both rules at once**, for an invariant that each row keeps whatever the server does:
it holds of some first rows, and of all where no request has failed. -/
theorem readPages_rule (I : List α → σ → Prop) {rows : List α} {s : σ}
    (hP : P.Guards Fine) (hfine : ∀ s a, Fine (body s a) → Fine s)
    (hans : ∀ p s a b, I p s → I p (P.answered a b s))
    (hbody : ∀ p a s, I p s → I (p ++ [a]) (body s a)) (h : I [] s) :
    ∃ p, p <+: rows ∧ (Fine (readPages P body rows s) → p = rows)
      ∧ I p (readPages P body rows s) := by
  by_cases hok : Fine (readPages P body rows s)
  · exact ⟨rows, List.prefix_refl _, fun _ => rfl,
      readPages_complete P body I hP hfine hans (fun p a t _ _ => hbody p a t) h hok⟩
  · obtain ⟨p, hp, hI⟩ := readPages_prefix P body I rows s hans (fun p a t _ => hbody p a t) h
    exact ⟨p, hp, fun hfine => absurd hfine hok, hI⟩

end Complete

section Opened

variable {P : PageServer σ} {body : σ → α → σ} (I : Bool → σ → Prop)

/-- **The statement of a loop is closed when the loop ends.** The invariant `I` is told
whether the statement is open, and each row is processed with the statement as the page has
left it. -/
theorem pageLoop_closes (hans : ∀ a b s, I a s → I b (P.answered a b s))
    (hbody : ∀ b s r, I b s → I b (body s r)) :
    ∀ (fuel : ℕ) (isOpen : Bool) (left : List α) (s : σ), left.length < fuel → I isOpen s →
      I false (pageLoop P body fuel isOpen left s) := by
  have hpage : ∀ (b : Bool) (page : List α) (s : σ), I b s → I b (page.foldl body s) := by
    intro b page
    induction page with
    | nil => exact fun _ h => h
    | cons r page ih => exact fun s h => ih _ (hbody b s r h)
  intro fuel
  induction fuel with
  | zero => exact fun _ _ _ h => absurd h (Nat.not_lt_zero _)
  | succ fuel ih =>
    intro isOpen left s hlen h
    unfold pageLoop
    split
    · exact hans _ _ s h
    · exact hans _ _ s h
    · rename_i extra more r rest _
      dsimp only
      split
      · rename_i hstays
        refine ih _ _ _ ?_ (hstays ▸ hpage _ _ _ (hans _ _ s h))
        refine lt_of_le_of_lt ?_ (Nat.lt_of_succ_lt_succ hlen)
        rw [List.length_drop]
        exact Nat.sub_le _ _
      · rename_i hstays
        have hclosed := Bool.eq_false_of_not_eq_true hstays
        exact hclosed ▸ hpage _ _ _ (hans _ _ s h)

variable (P body) in
/-- `pageLoop_closes` for the loop from its start. -/
theorem readPages_closes (rows : List α) (s : σ)
    (hans : ∀ a b s, I a s → I b (P.answered a b s))
    (hbody : ∀ b s r, I b s → I b (body s r)) (h : I false s) :
    I false (readPages P body rows s) :=
  pageLoop_closes I hans hbody _ _ _ _ (Nat.lt_succ_self _) h

end Opened
