import Mathlib.Data.Finset.Basic
import Mathlib.Data.Finset.Filter
import Mathlib.Tactic.Tauto

/-!
# Edits of keyed sets

A set whose elements have keys is edited in two ways: an element is set, in the place
of all elements of its key, or it is added to them. A list of edits is applied from the
left.

What such a list leaves of the old set does not depend on the order of the edits: the
elements with a key that is never set (`mem_applyAll`). So a list of edits makes up for
any part of it that has been applied before, in whatever order and however often
(`applyAll_applyAll`): it may be interrupted and started again.
-/

/-- An edit: an element set in the place of all of its key, or added. -/
inductive KeyedEdit (α : Type)
  | set (a : α)
  | add (a : α)

namespace KeyedEdit

variable {α κ : Type} [DecidableEq α] [DecidableEq κ] {key : α → κ}

/-- The set after an edit. -/
def apply (key : α → κ) : KeyedEdit α → Finset α → Finset α
  | .set a, A => insert a (A.filter (fun b => key b ≠ key a))
  | .add a, A => insert a A

/-- The set after some edits. -/
def applyAll (key : α → κ) (edits : List (KeyedEdit α)) (A : Finset α) : Finset α :=
  edits.foldl (fun A e => e.apply key A) A

@[simp] theorem applyAll_nil (A : Finset α) : applyAll key [] A = A := rfl

@[simp] theorem applyAll_cons (e : KeyedEdit α) (edits : List (KeyedEdit α)) (A : Finset α) :
    applyAll key (e :: edits) A = applyAll key edits (e.apply key A) := rfl

/-- No edit sets an element with the key of this one. -/
def Spares (key : α → κ) (edits : List (KeyedEdit α)) (a : α) : Prop :=
  ∀ b, KeyedEdit.set b ∈ edits → key b ≠ key a

omit [DecidableEq α] [DecidableEq κ] in
@[simp] theorem spares_cons_set {b : α} {edits : List (KeyedEdit α)} {a : α} :
    Spares key (.set b :: edits) a ↔ key b ≠ key a ∧ Spares key edits a := by
  simp [Spares]

omit [DecidableEq α] [DecidableEq κ] in
@[simp] theorem spares_cons_add {b : α} {edits : List (KeyedEdit α)} {a : α} :
    Spares key (.add b :: edits) a ↔ Spares key edits a := by
  simp [Spares]

/-- **What some edits leave**: what they leave of nothing, and of the old set what no
edit sets the key of. -/
theorem mem_applyAll {a : α} : ∀ {edits : List (KeyedEdit α)} {A : Finset α},
    a ∈ applyAll key edits A ↔ a ∈ applyAll key edits ∅ ∨ a ∈ A ∧ Spares key edits a := by
  intro edits
  induction edits with
  | nil => simp [Spares]
  | cons e edits ih =>
    intro A
    rw [applyAll_cons, applyAll_cons, ih, @ih (e.apply key ∅)]
    cases e with
    | set b =>
      rw [spares_cons_set]
      simp only [apply, Finset.mem_insert, Finset.mem_filter, Finset.notMem_empty, false_and,
        or_false]
      have hkey : key a ≠ key b ↔ key b ≠ key a := ne_comm
      tauto
    | add b =>
      rw [spares_cons_add]
      simp only [apply, Finset.mem_insert, Finset.notMem_empty, or_false]
      tauto

/-- An element whose key is not set is there once it has been added. -/
theorem mem_applyAll_of_spares {a : α} {edits : List (KeyedEdit α)} (h : Spares key edits a) :
    a ∈ applyAll key edits ∅ ↔ KeyedEdit.add a ∈ edits := by
  induction edits with
  | nil => simp
  | cons e edits ih =>
    rw [applyAll_cons, mem_applyAll, List.mem_cons]
    cases e with
    | set b =>
      obtain ⟨hne, h⟩ := spares_cons_set.mp h
      have hab : a ≠ b := fun hab => hne (hab ▸ rfl)
      rw [ih h]
      simp [apply, hab]
    | add b =>
      have h := spares_cons_add.mp h
      rw [ih h]
      simp only [apply, Finset.mem_insert, Finset.notMem_empty, or_false, KeyedEdit.add.injEq]
      tauto

/-- **Some edits make up for any part of them that has been applied before.** -/
theorem applyAll_applyAll {part edits : List (KeyedEdit α)} (h : ∀ e ∈ part, e ∈ edits)
    (A : Finset α) : applyAll key edits (applyAll key part A) = applyAll key edits A := by
  ext a
  rw [mem_applyAll, @mem_applyAll _ _ _ _ key a edits A, @mem_applyAll _ _ _ _ key a part]
  by_cases hspares : Spares key edits a
  · have hpart : Spares key part a := fun b hb => hspares b (h _ hb)
    have hadded : a ∈ applyAll key part ∅ → a ∈ applyAll key edits ∅ := by
      rw [mem_applyAll_of_spares hpart, mem_applyAll_of_spares hspares]
      exact h (.add a)
    tauto
  · tauto

end KeyedEdit
