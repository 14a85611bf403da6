import Mathlib.Data.List.Basic

/-!
# Registers under a log

Events are recorded in a log. Each event is about one register, and puts a value into it
or leaves it as it is. What a register holds after a log is what the last event about it
that puts a value has put, and what it held before where there is none.
-/

/-- How events bear on registers. -/
structure Registers (K E V : Type) where
  /-- The register an event is about. -/
  key : E → K
  /-- What it puts there, if anything. -/
  put : E → Option V

namespace Registers

variable {K E V : Type} [DecidableEq K] (R : Registers K E V) {k : K} {e : E} {log log' : List E}
  {v : V}

/-- What a register holds after a log. -/
def read (k : K) (log : List E) (v : V) : V :=
  log.foldl (fun v e => if R.key e = k then (R.put e).getD v else v) v

theorem read_append (k : K) (log log' : List E) (v : V) :
    R.read k (log ++ log') v = R.read k log' (R.read k log v) :=
  List.foldl_append

/-- **Nothing is put into a register** by events that are about others, or that put
nothing. -/
theorem read_untouched (h : ∀ e ∈ log, R.key e = k → R.put e = none) (v : V) :
    R.read k log v = v := by
  induction log generalizing v with
  | nil => rfl
  | cons e log ih =>
    have hstep : (if R.key e = k then (R.put e).getD v else v) = v := by
      by_cases hkey : R.key e = k
      · rw [if_pos hkey, h e List.mem_cons_self hkey]
        rfl
      · rw [if_neg hkey]
    show R.read k log (if R.key e = k then (R.put e).getD v else v) = v
    rw [hstep]
    exact ih (fun e he => h e (List.mem_cons_of_mem _ he)) v

/-- **The last value put stays**, whatever came before it. -/
theorem read_last {w : V} (hkey : R.key e = k) (hput : R.put e = some w)
    (h : ∀ e ∈ log', R.key e = k → R.put e = none) (log : List E) (v : V) :
    R.read k (log ++ e :: log') v = w := by
  rw [read_append]
  show R.read k log' (if R.key e = k then (R.put e).getD (R.read k log v) else R.read k log v) = w
  rw [if_pos hkey, hput]
  exact R.read_untouched h w

end Registers
