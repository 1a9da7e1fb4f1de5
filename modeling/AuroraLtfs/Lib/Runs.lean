import Mathlib

/-!
# Invariants along a run

Operations are carried out one after the other.  If one operation keeps an invariant
exactly where it is admissible, the invariant holds throughout a run exactly if every
operation of the run is admissible in the state it is made in.
-/

namespace AuroraLtfs

variable {ο σ : Type*}

/-- Carry out operations in order. -/
def runSteps (step : ο → σ → σ) (ops : List ο) (s : σ) : σ :=
  ops.foldl (fun s op => step op s) s

section Runs

variable {step : ο → σ → σ}

@[simp]
theorem runSteps_nil (s : σ) : runSteps step [] s = s := rfl

@[simp]
theorem runSteps_cons (op : ο) (ops : List ο) (s : σ) :
    runSteps step (op :: ops) s = runSteps step ops (step op s) := rfl

@[simp]
theorem runSteps_append (ops ops' : List ο) (s : σ) :
    runSteps step (ops ++ ops') s = runSteps step ops' (runSteps step ops s) :=
  List.foldl_append

variable {Inv : σ → Prop} {Admissible : σ → ο → Prop}

/-- An invariant that every admissible operation keeps holds throughout a run of such
operations. -/
theorem runSteps_invariant (hstep : ∀ op s, Inv s → Admissible s op → Inv (step op s))
    (ops : List ο) {s : σ} (h : Inv s)
    (hall : ∀ before op after, ops = before ++ op :: after →
      Admissible (runSteps step before s) op) (n : ℕ) :
    Inv (runSteps step (ops.take n) s) := by
  induction ops generalizing s n with
  | nil => simpa using h
  | cons op ops ih =>
    cases n with
    | zero => simpa using h
    | succ n =>
      have hfirst := hstep op s h (hall [] op ops rfl)
      rw [List.take_succ_cons, runSteps_cons]
      apply ih hfirst
      intro before op' after heq
      exact hall (op :: before) op' after (by rw [heq]; rfl)

theorem runSteps_invariant_iff
    (hstep : ∀ op s, Inv s → (Inv (step op s) ↔ Admissible s op))
    (ops : List ο) {s : σ} (h : Inv s) :
    (∀ n, Inv (runSteps step (ops.take n) s)) ↔
      ∀ before op after, ops = before ++ op :: after →
        Admissible (runSteps step before s) op := by
  constructor
  · intro hrun before op after heq
    have hbefore : Inv (runSteps step before s) := by
      simpa [heq] using hrun before.length
    apply (hstep op _ hbefore).1
    have hnext := hrun (before.length + 1)
    rwa [heq, List.take_length_add_append, List.take_one, runSteps_append] at hnext
  · intro hall
    exact runSteps_invariant (fun op s hs => (hstep op s hs).2) ops h hall

end Runs

end AuroraLtfs
