import Mathlib

/-!
# Chains of parent pointers

A partial function `parent` sends each node to the one above it.  `climb` follows
it a given number of times.  Where every chain ends, no node is above itself, and
a chain over finitely many nodes is no longer than their number.  Hanging a node
under another one keeps every chain finite exactly because the other one is not
below it.
-/

namespace AuroraLtfs.ParentChain

variable {α : Type*} {parent : α → Option α}

/-- The node `k` pointers above `x`, if there are so many. -/
def climb (parent : α → Option α) : ℕ → α → Option α
  | 0, x => some x
  | k + 1, x => (parent x).bind (climb parent k)

/-- The chain from `x` ends. -/
def Ends (parent : α → Option α) (x : α) : Prop :=
  ∃ k, climb parent k x = none

/-- `a` is `x` or lies above it. -/
def Above (parent : α → Option α) (a x : α) : Prop :=
  ∃ k, climb parent k x = some a

@[simp]
theorem climb_zero (x : α) : climb parent 0 x = some x := rfl

theorem climb_succ (k : ℕ) (x : α) :
    climb parent (k + 1) x = (parent x).bind (climb parent k) := rfl

theorem climb_succ_some {x p : α} (hp : parent x = some p) (k : ℕ) :
    climb parent (k + 1) x = climb parent k p := by
  rw [climb_succ, hp]
  rfl

theorem climb_succ_none {x : α} (hp : parent x = none) (k : ℕ) :
    climb parent (k + 1) x = none := by
  rw [climb_succ, hp]
  rfl

theorem climb_add (i j : ℕ) (x : α) :
    climb parent (i + j) x = (climb parent i x).bind (climb parent j) := by
  induction i generalizing x with
  | zero => rw [Nat.zero_add, climb_zero, Option.bind_some]
  | succ i ih =>
    rw [Nat.succ_add, climb_succ, climb_succ, Option.bind_assoc]
    exact congrArg _ (funext ih)

theorem climb_none_of_le {i j : ℕ} {x : α} (hi : climb parent i x = none)
    (hij : i ≤ j) : climb parent j x = none := by
  obtain ⟨k, rfl⟩ := Nat.exists_eq_add_of_le hij
  rw [climb_add, hi]
  rfl

theorem Above.refl (x : α) : Above parent x x := ⟨0, rfl⟩

theorem Above.of_parent {a x p : α} (hp : parent x = some p)
    (ha : Above parent a p) : Above parent a x := by
  obtain ⟨k, hk⟩ := ha
  exact ⟨k + 1, by rw [climb_succ_some hp, hk]⟩

/-- Going round once more ends where the first round started. -/
theorem climb_mul {i : ℕ} {x : α} (hi : climb parent i x = some x) (n : ℕ) :
    climb parent (n * i) x = some x := by
  induction n with
  | zero => rw [Nat.zero_mul, climb_zero]
  | succ n ih => rw [Nat.succ_mul, climb_add, ih, Option.bind_some, hi]

/-- A node whose chain ends is not above itself. -/
theorem Ends.climb_ne_self {x : α} (hends : Ends parent x) {i : ℕ}
    (hi : 0 < i) : climb parent i x ≠ some x := by
  intro hloop
  obtain ⟨k, hk⟩ := hends
  have hlong : climb parent (k * i) x = none :=
    climb_none_of_le hk (Nat.le_mul_of_pos_right k hi)
  rw [climb_mul hloop] at hlong
  cases hlong

theorem Ends.of_parent {x p : α} (hp : parent x = some p)
    (hends : Ends parent p) : Ends parent x := by
  obtain ⟨k, hk⟩ := hends
  exact ⟨k + 1, by rw [climb_succ_some hp, hk]⟩

theorem Ends.of_none {x : α} (hp : parent x = none) : Ends parent x :=
  ⟨1, climb_succ_none hp 0⟩

/-- Induction along chains: what holds of a node as soon as it holds of the node
above holds of every node whose chain ends. -/
theorem Ends.induct {P : α → Prop} {x : α} (hends : Ends parent x)
    (top : ∀ y, parent y = none → P y)
    (step : ∀ y p, parent y = some p → P p → P y) : P x := by
  obtain ⟨k, hk⟩ := hends
  induction k generalizing x with
  | zero => rw [climb_zero] at hk; cases hk
  | succ k ih =>
    cases hp : parent x with
    | none => exact top x hp
    | some p =>
      rw [climb_succ_some hp] at hk
      exact step x p hp (ih hk)

section Update

variable [DecidableEq α]

/-- A chain that does not meet `f` does not see the pointer of `f`. -/
theorem climb_update {f x : α} (hf : ¬ Above parent f x) (t : Option α) (k : ℕ) :
    climb (Function.update parent f t) k x = climb parent k x := by
  induction k generalizing x with
  | zero => rfl
  | succ k ih =>
    have hne : x ≠ f := by
      rintro rfl
      exact hf (Above.refl x)
    have hsame : Function.update parent f t x = parent x :=
      Function.update_of_ne hne t parent
    cases hp : parent x with
    | none => rw [climb_succ_none hp, climb_succ_none (hsame.trans hp)]
    | some p =>
      rw [climb_succ_some hp, climb_succ_some (hsame.trans hp)]
      exact ih fun hup => hf (hup.of_parent hp)

/-- If the chain from `f` ends, so do those that lead through it. -/
theorem Ends.update {f : α} {t : Option α} (hends : ∀ x, Ends parent x)
    (hf : Ends (Function.update parent f t) f) (x : α) :
    Ends (Function.update parent f t) x := by
  refine (hends x).induct (fun y hy => ?_) fun y p hy ih => ?_
  · by_cases hyf : y = f
    · rw [hyf]; exact hf
    · exact Ends.of_none ((Function.update_of_ne hyf _ _).trans hy)
  · by_cases hyf : y = f
    · rw [hyf]; exact hf
    · exact Ends.of_parent ((Function.update_of_ne hyf _ _).trans hy) ih

/-- Hanging `f` under a node that is not below it leaves every chain finite. -/
theorem Ends.update_some {f t : α} (hends : ∀ x, Ends parent x)
    (hft : ¬ Above parent f t) (x : α) : Ends (Function.update parent f (some t)) x := by
  have ht : Ends (Function.update parent f (some t)) t := by
    obtain ⟨k, hk⟩ := hends t
    exact ⟨k, (climb_update hft (some t) k).trans hk⟩
  exact Ends.update hends (ht.of_parent (Function.update_self f (some t) parent)) x

/-- Taking a pointer away shortens chains only. -/
theorem Above.of_update_none {f a x : α}
    (ha : Above (Function.update parent f none) a x) : Above parent a x := by
  obtain ⟨k, hk⟩ := ha
  induction k generalizing x with
  | zero => exact ⟨0, hk⟩
  | succ k ih =>
    by_cases hxf : x = f
    · rw [climb_succ_none (by rw [hxf, Function.update_self])] at hk
      cases hk
    · cases hp : parent x with
      | none =>
        rw [climb_succ_none ((Function.update_of_ne hxf _ _).trans hp)] at hk
        cases hk
      | some p =>
        rw [climb_succ_some ((Function.update_of_ne hxf _ _).trans hp)] at hk
        exact (ih hk).of_parent hp

/-- Taking a pointer away leaves every chain finite. -/
theorem Ends.update_none {f : α} (hends : ∀ x, Ends parent x) (x : α) :
    Ends (Function.update parent f none) x :=
  Ends.update hends (Ends.of_none (Function.update_self f none parent)) x

end Update

section Bounded

variable {parent : ℕ → Option ℕ}

/-- The nodes of the chain from `x`, the first `k` of them. -/
def chain (parent : ℕ → Option ℕ) : ℕ → ℕ → List ℕ
  | 0, _ => []
  | k + 1, x =>
    x :: match parent x with
      | none => []
      | some p => chain parent k p

theorem mem_chain {k x y : ℕ} (hy : y ∈ chain parent k x) : Above parent y x := by
  induction k generalizing x with
  | zero => cases hy
  | succ k ih =>
    rw [chain] at hy
    rcases List.mem_cons.1 hy with rfl | hy
    · exact Above.refl y
    · cases hp : parent x with
      | none => rw [hp] at hy; cases hy
      | some p =>
        rw [hp] at hy
        exact (ih hy).of_parent hp

theorem nodup_chain (hends : ∀ x, Ends parent x) (k x : ℕ) : (chain parent k x).Nodup := by
  induction k generalizing x with
  | zero => exact List.nodup_nil
  | succ k ih =>
    rw [chain]
    cases hp : parent x with
    | none => exact List.nodup_singleton x
    | some p =>
      refine List.nodup_cons.2 ⟨fun hx => ?_, ih p⟩
      obtain ⟨i, hi⟩ := mem_chain hx
      exact (hends x).climb_ne_self (Nat.succ_pos i) ((climb_succ_some hp i).trans hi)

theorem length_chain {k x : ℕ} (hk : climb parent k x ≠ none) :
    (chain parent (k + 1) x).length = k + 1 := by
  induction k generalizing x with
  | zero =>
    rw [chain]
    cases parent x <;> rfl
  | succ k ih =>
    rw [chain]
    cases hp : parent x with
    | none => exact absurd (climb_succ_none hp k) hk
    | some p =>
      rw [climb_succ_some hp] at hk
      show (chain parent (k + 1) p).length + 1 = k + 1 + 1
      rw [ih hk]

/-- A chain through nodes below `n` has at most `n` of them. -/
theorem climb_eq_none_of_bounded {n : ℕ} (hends : ∀ x, Ends parent x)
    (hbound : ∀ x p, parent x = some p → p < n) {x : ℕ} (hx : x < n) :
    climb parent n x = none := by
  by_contra hlong
  have hsub : chain parent (n + 1) x ⊆ List.range n := by
    intro y hy
    rw [List.mem_range]
    obtain ⟨k, hk⟩ := mem_chain hy
    cases k with
    | zero => rw [climb_zero] at hk; exact Option.some.inj hk ▸ hx
    | succ k =>
      rw [climb_add k 1] at hk
      obtain ⟨z, _, hz⟩ := Option.bind_eq_some_iff.1 hk
      cases hp : parent z with
      | none => rw [climb_succ_none hp] at hz; cases hz
      | some p =>
        rw [climb_succ_some hp, climb_zero] at hz
        exact Option.some.inj hz ▸ hbound z p hp
  have hle := (List.subperm_of_subset (nodup_chain hends (n + 1) x) hsub).length_le
  rw [length_chain hlong, List.length_range] at hle
  omega

end Bounded

end AuroraLtfs.ParentChain
