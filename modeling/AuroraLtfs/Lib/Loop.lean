import Mathlib

/-!
# Loops

A loop takes steps until one of them leaves it with a result.  `runLoop` runs it for a
number of rounds; a loop whose steps go down a well-founded order leaves it, and what
its steps preserve holds of the result.
-/

namespace AuroraLtfs

variable {σ α : Type*}

/-- At most `rounds` rounds of a loop. -/
def runLoop (step : σ → α ⊕ σ) : ℕ → σ → Option α
  | 0, _ => none
  | rounds + 1, s =>
    match step s with
    | .inl a => some a
    | .inr s' => runLoop step rounds s'

/-- A loop that goes down ends, with a result that `Post` holds of, and more rounds
change nothing. -/
theorem runLoop_terminates {step : σ → α ⊕ σ} {lt : σ → σ → Prop} (hwf : WellFounded lt)
    {Inv : σ → Prop} {Post : α → Prop} (hdone : ∀ s a, Inv s → step s = .inl a → Post a)
    (hnext : ∀ s s', Inv s → step s = .inr s' → Inv s' ∧ lt s' s) (s : σ) (h : Inv s) :
    ∃ a n, Post a ∧ ∀ rounds, n ≤ rounds → runLoop step rounds s = some a := by
  induction s using hwf.induction with
  | _ s ih =>
    cases hstep : step s with
    | inl a =>
      refine ⟨a, 1, hdone s a h hstep, fun rounds hrounds => ?_⟩
      obtain ⟨rounds, rfl⟩ : ∃ m, rounds = m + 1 := ⟨rounds - 1, by omega⟩
      rw [runLoop, hstep]
    | inr s' =>
      obtain ⟨hinv, hlt⟩ := hnext s s' h hstep
      obtain ⟨a, n, hpost, hrun⟩ := ih s' hlt hinv
      refine ⟨a, n + 1, hpost, fun rounds hrounds => ?_⟩
      obtain ⟨rounds, rfl⟩ : ∃ m, rounds = m + 1 := ⟨rounds - 1, by omega⟩
      rw [runLoop, hstep]
      exact hrun rounds (by omega)

end AuroraLtfs
