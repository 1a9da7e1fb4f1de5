import Mathlib

/-!
# Reader-writer locks and calls that start over

What one thread does to a reader-writer lock is a list of operations, the latest
first.  `held` replays the list: it says how the thread holds the lock, and is
`none` once an operation did not fit, such as a second release.  A list that
fits and leaves the lock free has released every mode as often as it acquired
it.

`retry` is the loop around a call that begins again from its first line; what
every pass preserves holds for the whole call.
-/

namespace AuroraLtfs

namespace RwLock

/-- How a thread holds the lock. -/
inductive Held where
  | free
  | read
  | write
  deriving DecidableEq, Repr

inductive LockOp where
  | acquireRead
  | acquireWrite
  | releaseRead
  | releaseWrite
  | writeToRead
  deriving DecidableEq, Repr

/-- One operation; `none` where the thread may not do it. -/
def LockOp.step : LockOp → Held → Option Held
  | .acquireRead, .free => some .read
  | .acquireWrite, .free => some .write
  | .releaseRead, .read => some .free
  | .releaseWrite, .write => some .free
  | .writeToRead, .write => some .read
  | _, _ => none

/-- How the lock is held after the operations, of which the first came last. -/
def held : List LockOp → Option Held
  | [] => some .free
  | op :: ops => (held ops).bind op.step

@[simp]
theorem held_nil : held [] = some .free := rfl

@[simp]
theorem held_cons (op : LockOp) (ops : List LockOp) :
    held (op :: ops) = (held ops).bind op.step := rfl

/-- Every mode has been released as often as it was acquired.  Turning a write
lock into a read lock releases the one and acquires the other. -/
def Matched (ops : List LockOp) : Prop :=
  ops.count .acquireRead + ops.count .writeToRead = ops.count .releaseRead ∧
    ops.count .acquireWrite = ops.count .releaseWrite + ops.count .writeToRead

/-- A held lock is one acquisition ahead, in its mode. -/
theorem count_of_held {ops : List LockOp} {h : Held} (hops : held ops = some h) :
    ops.count .acquireRead + ops.count .writeToRead =
        ops.count .releaseRead + (if h = .read then 1 else 0) ∧
      ops.count .acquireWrite = ops.count .releaseWrite +
        ops.count .writeToRead + (if h = .write then 1 else 0) := by
  induction ops generalizing h with
  | nil =>
    cases hops
    simp
  | cons op ops ih =>
    obtain ⟨before, hbefore, hstep⟩ := Option.bind_eq_some_iff.mp hops
    obtain ⟨hread, hwrite⟩ := ih hbefore
    cases op <;> cases before <;> cases hstep <;> simp at hread hwrite ⊢ <;> omega

theorem matched_of_held {ops : List LockOp} (hops : held ops = some .free) :
    Matched ops := by
  have hcount := count_of_held hops
  simpa [Matched] using hcount

end RwLock

/-! ## Calls that start over -/

variable {σ ρ : Type*}

/-- How one pass ends: the call begins again, or it returns. -/
inductive Pass (ρ : Type*) where
  | again
  | done (result : ρ)

/-- A call whose passes are repeated until one returns; `none` if none of the
first `passes` does. -/
def retry (pass : σ → Pass ρ × σ) : ℕ → σ → Option ρ × σ
  | 0, s => (none, s)
  | passes + 1, s =>
    match pass s with
    | (.again, s) => retry pass passes s
    | (.done r, s) => (some r, s)

/-- What one pass establishes: `P` where the call begins again, `Q` where it
returns. -/
def Pass.Meets (P : σ → Prop) (Q : ρ → σ → Prop) (r : Pass ρ × σ) : Prop :=
  match r with
  | (.again, s) => P s
  | (.done r, s) => Q r s

/-- If every pass that starts in `P` ends in `P` or returns in `Q`, so does the
whole call. -/
theorem retry_meets {pass : σ → Pass ρ × σ} {P : σ → Prop} {Q : ρ → σ → Prop}
    (hpass : ∀ s, P s → Pass.Meets P Q (pass s)) (passes : ℕ) {s : σ} (hs : P s) :
    match retry pass passes s with
    | (none, s) => P s
    | (some r, s) => Q r s := by
  induction passes generalizing s with
  | zero => exact hs
  | succ passes ih =>
    have hmeets := hpass s hs
    rw [retry]
    generalize pass s = r at hmeets ⊢
    obtain ⟨_ | r, t⟩ := r
    · exact ih hmeets
    · exact hmeets

theorem retry_preserves {pass : σ → Pass ρ × σ} {P : σ → Prop}
    (hpass : ∀ s, P s → Pass.Meets P (fun _ => P) (pass s)) (passes : ℕ) {s : σ}
    (hs : P s) : P (retry pass passes s).2 := by
  have hmeets := retry_meets hpass passes hs
  generalize retry pass passes s = r at hmeets ⊢
  obtain ⟨_ | _, t⟩ := r <;> exact hmeets

end AuroraLtfs
