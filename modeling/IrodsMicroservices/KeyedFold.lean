import Mathlib

/-!
# Updates that each touch one key

A store that is read through keys, and a list of updates of which each changes
what is found under its own key and nothing else. When the keys of the list are
distinct, what is found under a key afterwards depends on the one update that
has this key – so the order of the updates cannot be observed.

Nothing is asked of the store but how it is read, so two stores that read the
same need not be the same.
-/

section KeyedFold

variable {S K A V : Type} (get : S → K → V) (step : S → K × A → S) (upd : K × A → V → V)

/-- **An update touches its own key only.** -/
structure KeyedStep (ok : S → Prop) : Prop where
  /-- The stores the updates are about stay such stores. -/
  keeps : ∀ {s}, ok s → ∀ p, ok (step s p)
  /-- What is found under the key of the update. -/
  self : ∀ {s}, ok s → ∀ p, get (step s p) p.1 = upd p (get s p.1)
  /-- What is found under the other keys. -/
  other : ∀ {s}, ok s → ∀ {p k}, k ≠ p.1 → get (step s p) k = get s k

variable {get step upd} {ok : S → Prop} (h : KeyedStep get step upd ok)

namespace KeyedStep

include h

theorem foldl_keeps (ps : List (K × A)) : ∀ {s}, ok s → ok (ps.foldl step s) := by
  induction ps with
  | nil => exact fun hs => hs
  | cons p ps ih => exact fun hs => ih (h.keeps hs p)

/-- What is found under a key that no update has. -/
theorem get_foldl_of_not_mem {ps : List (K × A)} {k : K} (hk : k ∉ ps.map Prod.fst) :
    ∀ {s}, ok s → get (ps.foldl step s) k = get s k := by
  induction ps with
  | nil => exact fun _ => rfl
  | cons p ps ih =>
    intro s hs
    rw [List.map_cons, List.mem_cons, not_or] at hk
    rw [List.foldl_cons, ih hk.2 (h.keeps hs p), h.other hs hk.1]

/-- **What is found under the key of an update** is what this update makes of what
was there before all of them. -/
theorem get_foldl_of_mem {ps : List (K × A)} (hps : (ps.map Prod.fst).Nodup) {p : K × A}
    (hp : p ∈ ps) : ∀ {s}, ok s → get (ps.foldl step s) p.1 = upd p (get s p.1) := by
  induction ps with
  | nil => exact absurd hp List.not_mem_nil
  | cons q ps ih =>
    intro s hs
    obtain ⟨hq, hps⟩ := List.nodup_cons.mp hps
    rw [List.foldl_cons]
    rcases List.mem_cons.mp hp with rfl | hp
    · rw [h.get_foldl_of_not_mem hq (h.keeps hs p), h.self hs]
    · have hne : p.1 ≠ q.1 := fun he => hq (he ▸ List.mem_map_of_mem hp)
      rw [ih hps hp (h.keeps hs q), h.other hs hne]

/-- **What is found under a key is what the updates of this key make**, in their order, of
what was there before. -/
theorem get_foldl_filter [DecidableEq K] (ps : List (K × A)) (k : K) : ∀ {s}, ok s →
    get (ps.foldl step s) k
      = (ps.filter (fun p => p.1 = k)).foldl (fun v p => upd p v) (get s k) := by
  induction ps with
  | nil => exact fun _ => rfl
  | cons p ps ih =>
    intro s hs
    rw [List.foldl_cons, ih (h.keeps hs p)]
    by_cases hk : p.1 = k
    · rw [List.filter_cons_of_pos (by simpa using hk), List.foldl_cons, ← hk, h.self hs]
    · rw [List.filter_cons_of_neg (by simpa using hk), h.other hs (Ne.symm hk)]

/-- **The order of the updates cannot be observed.** -/
theorem get_foldl_perm {ps qs : List (K × A)} (hps : (ps.map Prod.fst).Nodup)
    (hperm : ps.Perm qs) {s : S} (hs : ok s) (k : K) :
    get (ps.foldl step s) k = get (qs.foldl step s) k := by
  by_cases hk : k ∈ ps.map Prod.fst
  · obtain ⟨p, hp, rfl⟩ := List.mem_map.mp hk
    have hqs : (qs.map Prod.fst).Nodup := (hperm.map Prod.fst).nodup_iff.mp hps
    rw [h.get_foldl_of_mem hps hp hs, h.get_foldl_of_mem hqs (hperm.subset hp) hs]
  · have hk' : k ∉ qs.map Prod.fst := fun hm => hk ((hperm.map Prod.fst).symm.subset hm)
    rw [h.get_foldl_of_not_mem hk hs, h.get_foldl_of_not_mem hk' hs]

end KeyedStep

end KeyedFold
