import Mathlib

/-!
# Interleaved threads

Threads over a shared memory, each at a program point.  `run` says what the
statement at a point can lead to: nothing, where the thread has to wait.  Any
thread may take the next step, so what is reachable is what some interleaving
leads to.  Invariants are stated by the numbers of threads at the points of a
class, and a step moves one thread from one point to another (`num_update`).
-/

namespace AuroraLtfs.Threads

variable {ι σ κ : Type*}

/-- The shared memory, and where each thread is. -/
structure State (ι σ κ : Type*) where
  shared : σ
  pc : ι → κ

section Runs

variable [DecidableEq ι] {run : κ → σ → List (σ × κ)} {s₀ s s' : State ι σ κ}

/-- One thread takes a step. -/
inductive Step (run : κ → σ → List (σ × κ)) (s : State ι σ κ) : State ι σ κ → Prop
  | mk (t : ι) {m : σ} {q : κ} (h : (m, q) ∈ run (s.pc t) s.shared) :
      Step run s ⟨m, Function.update s.pc t q⟩

/-- Some interleaving leads from `s₀` to the state. -/
inductive Reachable (run : κ → σ → List (σ × κ)) (s₀ : State ι σ κ) :
    State ι σ κ → Prop
  | start : Reachable run s₀ s₀
  | step {s s' : State ι σ κ} (before : Reachable run s₀ s) (step : Step run s s') :
      Reachable run s₀ s'

/-- What holds at the start and survives every step holds of every reachable
state. -/
theorem Reachable.invariant {P : State ι σ κ → Prop} (h : Reachable run s₀ s)
    (hstart : P s₀) (hstep : ∀ s s', P s → Step run s s' → P s') : P s := by
  induction h with
  | start => exact hstart
  | step _ step ih => exact hstep _ _ ih step

/-- A thread at point `p` goes on by its statement. -/
theorem Reachable.goes {pc : ι → κ} {t : ι} {m : σ} {p : κ}
    (h : Reachable run s₀ ⟨m, Function.update pc t p⟩) (m' : σ) (q : κ)
    (hrun : (m', q) ∈ run p m) : Reachable run s₀ ⟨m', Function.update pc t q⟩ := by
  have hstep := h.step (.mk t (m := m') (q := q) (by simpa using hrun))
  simpa using hstep

end Runs

/-! ## Counting threads -/

section Count

variable [Fintype ι] {P Q R : κ → Bool} {pc : ι → κ} {t u : ι}

/-- The number of threads at a point of the class. -/
def num (P : κ → Bool) (pc : ι → κ) : ℕ :=
  (Finset.univ.filter fun t => P (pc t) = true).card

theorem num_eq_sum (P : κ → Bool) (pc : ι → κ) : num P pc = ∑ t, (P (pc t)).toNat := by
  rw [num, Finset.card_filter]
  refine Finset.sum_congr rfl fun t _ => ?_
  cases P (pc t) <;> rfl

theorem num_update [DecidableEq ι] (P : κ → Bool) (pc : ι → κ) (t : ι) (q : κ) :
    num P (Function.update pc t q) + (P (pc t)).toNat =
      num P pc + (P q).toNat := by
  have hrest : ∑ u ∈ Finset.univ.erase t, (P (Function.update pc t q u)).toNat =
      ∑ u ∈ Finset.univ.erase t, (P (pc u)).toNat := by
    refine Finset.sum_congr rfl fun u hu => ?_
    rw [Function.update_of_ne (Finset.ne_of_mem_erase hu)]
  rw [num_eq_sum, num_eq_sum, ← Finset.add_sum_erase _ _ (Finset.mem_univ t),
    ← Finset.add_sum_erase _ _ (Finset.mem_univ t), hrest, Function.update_self]
  omega

/-- A thread that had nothing takes what nobody has. -/
theorem num_taken {n n' : ℕ} {had : Bool} (hmoved : n' + had.toNat = n + 1)
    (hhad : had = false) (hnone : n = 0) : n' = 1 := by
  rw [hhad, hnone] at hmoved
  exact hmoved

/-- The only thread that had it gives it back. -/
theorem num_given {n n' : ℕ} {had : Bool} (hmoved : n' + had.toNat = n)
    (hhad : had = true) (hone : n ≤ 1) : n' = 0 := by
  have hle := hmoved.trans_le hone
  rw [hhad, Bool.toNat_true] at hle
  omega

theorem num_pos (h : P (pc t) = true) : 0 < num P pc :=
  Finset.card_pos.2 ⟨t, by simp [h]⟩

theorem num_const (P : κ → Bool) (k : κ) :
    num P (fun _ : ι => k) = if P k then Fintype.card ι else 0 := by
  rw [num]
  split_ifs with h
  · simp [h]
  · simp [h]

/-- Of a class with at most one thread there is only one. -/
theorem eq_of_num_le_one (h : num P pc ≤ 1) (ht : P (pc t) = true)
    (hu : P (pc u) = true) : t = u :=
  Finset.card_le_one.1 h t (by simp [ht]) u (by simp [hu])

/-- Where a class has at most one thread, that thread decides about its
subclasses. -/
theorem num_of_unique (h : num R pc ≤ 1) (ht : R (pc t) = true)
    (hsub : ∀ k, P k = true → R k = true) : num P pc = (P (pc t)).toNat := by
  rw [num_eq_sum]
  refine Finset.sum_eq_single_of_mem t (Finset.mem_univ t) fun u _ hne => ?_
  cases hu : P (pc u) with
  | false => rfl
  | true => exact absurd (eq_of_num_le_one h (hsub _ hu) ht) hne

theorem num_mono (h : ∀ k, P k = true → Q k = true) (pc : ι → κ) : num P pc ≤ num Q pc :=
  Finset.card_le_card fun t ht => by
    simp only [Finset.mem_filter, Finset.mem_univ, true_and] at ht ⊢
    exact h _ ht

/-- A thread outside the class leaves room for one more. -/
theorem num_lt_card (h : P (pc t) = false) : num P pc < Fintype.card ι := by
  rw [num, ← Finset.card_univ]
  refine Finset.card_lt_card ⟨Finset.subset_univ _, fun hsub => ?_⟩
  have := hsub (Finset.mem_univ t)
  simp [h] at this

end Count

end AuroraLtfs.Threads
