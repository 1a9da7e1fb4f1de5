import Mathlib

/-!
# Calls that fail without forgetting

A call returns a value or an error, and in both cases the state it leaves
behind.  Calls are chained by `andThen`; what holds of a chain is established by
`andThen_elim`, one case for the failed first call and one for going on.
-/

namespace AuroraLtfs

variable {ε σ τ α β : Type*}

abbrev Outcome (ε σ α : Type*) := Except ε α × σ

namespace Outcome

variable {r : Outcome ε σ α} {next : α → σ → Outcome ε σ β}

/-- Go on with the value of a successful call.  An error ends the chain, with
the state the failed call has left. -/
def andThen (r : Outcome ε σ α) (next : α → σ → Outcome ε σ β) : Outcome ε σ β :=
  match r with
  | (.error e, s) => (.error e, s)
  | (.ok a, s) => next a s

@[simp]
theorem andThen_error (e : ε) (s : σ) (next : α → σ → Outcome ε σ β) :
    andThen (.error e, s) next = (.error e, s) := rfl

@[simp]
theorem andThen_ok (a : α) (s : σ) (next : α → σ → Outcome ε σ β) :
    andThen (.ok a, s) next = next a s := rfl

theorem andThen_elim {motive : Outcome ε σ β → Prop}
    (error : ∀ e s, r = (.error e, s) → motive (.error e, s))
    (ok : ∀ a s, r = (.ok a, s) → motive (next a s)) : motive (r.andThen next) := by
  rcases r with ⟨_ | a, s⟩
  · exact error _ s rfl
  · exact ok a s rfl

/-- A transitive relation between states that every call of a chain respects
holds across the chain. -/
theorem andThen_rel {R : σ → σ → Prop} (htrans : ∀ {a b c}, R a b → R b c → R a c) {s : σ}
    (hr : R s r.2) (hnext : ∀ a t, r = (.ok a, t) → R t (next a t).2) :
    R s (r.andThen next).2 := by
  apply andThen_elim (motive := fun x : Outcome ε σ β => R s x.2)
  · intro e t ht
    rw [ht] at hr
    exact hr
  · intro a t ht
    have hfirst : R s t := by
      rw [ht] at hr
      exact hr
    exact htrans hfirst (hnext a t ht)

theorem andThen_eq_ok {b : β} {t : σ} (h : r.andThen next = (.ok b, t)) :
    ∃ a s, r = (.ok a, s) ∧ next a s = (.ok b, t) := by
  rcases r with ⟨_ | a, s⟩
  · simp at h
  · exact ⟨a, s, rfl, h⟩

/-- The call succeeds, in a state that satisfies `P`. -/
def Succeeds (P : σ → Prop) (r : Outcome ε σ α) : Prop :=
  ∃ a s, r = (.ok a, s) ∧ P s

theorem Succeeds.andThen {P Q : σ → Prop} (hr : Succeeds P r)
    (hnext : ∀ a s, r = (.ok a, s) → P s → Succeeds Q (next a s)) :
    Succeeds Q (r.andThen next) := by
  obtain ⟨a, s, hs, hP⟩ := hr
  rw [hs, andThen_ok]
  exact hnext a s hs hP

/-- Run a call on a part of a larger state. -/
def within (put : σ → τ) (r : Outcome ε σ α) : Outcome ε τ α := (r.1, put r.2)

@[simp]
theorem within_fst (put : σ → τ) (r : Outcome ε σ α) :
    (r.within put).1 = r.1 := rfl

@[simp]
theorem within_snd (put : σ → τ) (r : Outcome ε σ α) :
    (r.within put).2 = put r.2 := rfl

theorem within_eq {put : σ → τ} {x : Except ε α} {t : τ} (h : r.within put = (x, t)) :
    ∃ s, r = (x, s) ∧ t = put s := by
  obtain ⟨y, s⟩ := r
  simp only [within, Prod.mk.injEq] at h
  exact ⟨s, by rw [h.1], h.2.symm⟩

end Outcome

end AuroraLtfs
