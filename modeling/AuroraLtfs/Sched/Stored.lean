import AuroraLtfs.Sched.Read
import AuroraLtfs.Sched.WriteOut

/-!
# The error that is stored with a file

Requests are written in the background, so an error is stored with the file.  A
write, a flush and a close return it and leave none behind; what the background
thread stores is what its writes to the tape return.
-/

namespace AuroraLtfs.Sched

open AuroraLtfs.Tape
open AuroraLtfs.Index
open AuroraLtfs.Raw
open RequestState

variable {σ β : Type*}

/-- The error that is stored with the file. -/
def storedError (s : State σ β) : Option TapeError :=
  s.file.ioschedPriv.bind DentryPriv.writeError

section Stored

variable (m : Mount) {s : State σ β} {p : DentryPriv β}

@[simp]
theorem storedError_withPriv (s : State σ β) (p : DentryPriv β) :
    storedError (s.withPriv p) = p.writeError := rfl

theorem storedError_eq (hp : s.file.ioschedPriv = some p) :
    storedError s = p.writeError := by
  simp [storedError, hp]

theorem placeTruncate_writeError (length : ℕ) (f : File β) (p : DentryPriv β) :
    (placeTruncate m length f (cutPriv length p)).writeError = p.writeError := by
  have hcut : (cutPriv length p).writeError = p.writeError := by
    rw [cutPriv]
    split_ifs <;> rfl
  rw [placeTruncate]
  split_ifs
  · exact hcut
  · exact (unset_writeError _).trans hcut
  · exact hcut

theorem updateAlt_writeError (bs : ℕ) (ext : Extent) (p : DentryPriv β) :
    (unifiedUpdateAltExtentlist bs ext p).writeError = p.writeError := by
  rw [unifiedUpdateAltExtentlist]
  split_ifs <;> rfl

/-- Allocating the private data stores no error. -/
theorem getDentryPriv_error (s : State σ β) :
    ∃ p, (unifiedGetDentryPriv m s.file).ioschedPriv = some p ∧
      p.writeError = storedError s := by
  rw [unifiedGetDentryPriv, storedError]
  cases hp : s.file.ioschedPriv with
  | none => exact ⟨_, rfl, rfl⟩
  | some p => exact ⟨p, hp, rfl⟩

theorem unifiedTruncate_stored (length : ℕ) (s : State σ β) :
    storedError (unifiedTruncate m length s).2 = storedError s := by
  rw [unifiedTruncate]
  split
  · rfl
  · simp only [storedError]
    cases s.file.ioschedPriv with
    | none => rfl
    | some p => exact placeTruncate_writeError m length s.file p

theorem place_stored (f : File β) :
    (unifiedUpdateDataPlacement m f).ioschedPriv.bind DentryPriv.writeError =
      f.ioschedPriv.bind DentryPriv.writeError := by
  rw [unifiedUpdateDataPlacement]
  cases hp : f.ioschedPriv with
  | none => rw [hp]
  | some p =>
    simp only [Option.bind_some]
    split_ifs
    · rfl
    · exact unset_writeError p
    · rfl

theorem unifiedRead_priv [Zero β] (offset size : ℕ) (s : State σ β) :
    (unifiedRead m offset size s).2.file.ioschedPriv = s.file.ioschedPriv := by
  rw [unifiedRead]
  split_ifs
  · rfl
  · rfl

end Stored

/-! ## The calls that report -/

section Calls

variable (C : Catalog σ (List β)) (m : Mount) {s : State σ β} {e : TapeError}

theorem unifiedGetWriteError_fst (h : storedError s = some e) :
    (unifiedGetWriteError s).1 = .error e := by
  obtain ⟨p, hp, he⟩ := Option.bind_eq_some_iff.1 h
  rw [unifiedGetWriteError_eq_error hp he]

/-- Reading the error resets it. -/
theorem unifiedGetWriteError_clears (s : State σ β) :
    storedError (unifiedGetWriteError s).2 = none := by
  rw [unifiedGetWriteError]
  cases hp : s.file.ioschedPriv with
  | none => simp [storedError, hp]
  | some p =>
    dsimp only
    cases he : p.writeError with
    | none => simp [storedError, hp, he]
    | some e => rfl

/-- A write that has bytes to queue returns the stored error, and leaves none
behind. -/
theorem unifiedWrite_reports (resumed : Bool) (blocks offset : ℕ)
    {bytes : List β} (hbytes : bytes ≠ []) (s : State σ β) :
    storedError (unifiedWrite m resumed blocks offset bytes s).2 = none ∧
      ∀ e, storedError s = some e →
        (unifiedWrite m resumed blocks offset bytes s).1 = .error e := by
  obtain ⟨p, hp, herror⟩ := getDentryPriv_error m s
  rw [unifiedWrite, if_neg hbytes]
  simp only [hp]
  cases he : p.writeError with
  | some e =>
    rw [he] at herror
    refine ⟨rfl, ?_⟩
    intro e' he'
    rw [← herror, Option.some.injEq] at he'
    rw [he']
  | none =>
    rw [he] at herror
    constructor
    · dsimp only
      split
      · simp [storedError, hp, he]
      · simp [queueWrite, he]
    · intro e he'
      rw [← herror] at he'
      exact absurd he' (by simp)

theorem unifiedFlushUnlocked_eq_error (h : storedError s = some e) :
    (unifiedFlushUnlocked C m s).1 = .error e := by
  obtain ⟨p, hp, he⟩ := Option.bind_eq_some_iff.1 h
  rw [unifiedFlushUnlocked, hp]
  simp only [unifiedGetWriteError_eq_error hp he, Outcome.andThen_error]

/-- The error of a write during the flush is returned by the flush itself. -/
theorem unifiedFlushUnlocked_fails {p : DentryPriv β}
    (hp : s.file.ioschedPriv = some p) (hnone : p.writeError = none)
    (hfail : (flushRequests C m p.writeIp p.requests (startSweep p s)).1 =
      .error e) : (unifiedFlushUnlocked C m s).1 = .error e := by
  have hrequests : p.requests ≠ [] := by
    intro hempty
    rw [hempty, flushRequests] at hfail
    exact absurd hfail (by simp)
  rw [unifiedFlushUnlocked, hp]
  simp only [unifiedGetWriteError_eq_ok hp hnone, Outcome.andThen_ok, if_neg hrequests]
  apply unifiedGetWriteError_fst
  rw [hfail, endSweep]
  simp [handle_writeError, hnone]

theorem unifiedFlushUnlocked_clears (s : State σ β) :
    storedError (unifiedFlushUnlocked C m s).2 = none := by
  rw [unifiedFlushUnlocked]
  cases hp : s.file.ioschedPriv with
  | none => simp [storedError, hp]
  | some p =>
    apply Outcome.andThen_elim (motive := fun r : TapeCall (State σ β) Unit =>
      storedError r.2 = none)
    · intro e t ht
      have hclear := unifiedGetWriteError_clears s
      rwa [ht] at hclear
    · intro _ t ht
      have hclear := unifiedGetWriteError_clears s
      rw [ht] at hclear
      split_ifs
      · exact hclear
      · exact unifiedGetWriteError_clears _

/-- A flush that returns no error has found none. -/
theorem stored_of_unifiedFlushUnlocked_ok
    (h : (unifiedFlushUnlocked C m s).1 = .ok ()) : storedError s = none := by
  cases he : storedError s with
  | none => rfl
  | some e =>
    rw [unifiedFlushUnlocked_eq_error C m he] at h
    cases h

/-- The private data is freed only where the file has few handles and no
alternate extents. -/
theorem freeConditional_priv (targetHandles : ℕ) (f : File β) :
    (unifiedFreeDentryPrivConditional targetHandles f).ioschedPriv =
        f.ioschedPriv ∨
      (unifiedFreeDentryPrivConditional targetHandles f).ioschedPriv = none ∧
        f.numhandles ≤ targetHandles ∧
        ∀ p, f.ioschedPriv = some p → p.altExtentlist = [] := by
  rw [unifiedFreeDentryPrivConditional]
  cases hp : f.ioschedPriv with
  | none => exact .inl hp
  | some p =>
    dsimp only
    split_ifs with hfree
    · right
      refine ⟨rfl, hfree.1, ?_⟩
      rintro q ⟨rfl⟩
      exact hfree.2.2
    · exact .inl hp

theorem freeConditional_stored (targetHandles : ℕ) (h : storedError s = none) :
    storedError { s with
      file := unifiedFreeDentryPrivConditional targetHandles s.file } = none := by
  rw [storedError] at h ⊢
  rcases freeConditional_priv targetHandles s.file with hsame | ⟨hnone, -⟩
  · rw [hsame, h]
  · rw [hnone]
    rfl

/-- A close, with or without a flush, returns the stored error. -/
theorem unifiedClose_reports (flush : Bool) (h : storedError s = some e) :
    (unifiedClose C m flush s).1 = .error e := by
  rw [unifiedClose]
  cases flush with
  | true => simp [unifiedFlushUnlocked_eq_error C m h]
  | false => simp [unifiedGetWriteError_fst h]

theorem unifiedClose_clears (flush : Bool) (s : State σ β) :
    storedError (unifiedClose C m flush s).2 = none := by
  have hclose : ∀ t : State σ β, storedError
      { (unifiedGetWriteError t).2 with file :=
        { unifiedFreeDentryPrivConditional 3 (unifiedGetWriteError t).2.file with
          numhandles := (unifiedFreeDentryPrivConditional 3
            (unifiedGetWriteError t).2.file).numhandles - 1 } } = none := by
    intro t
    exact freeConditional_stored 3 (unifiedGetWriteError_clears t)
  rw [unifiedClose]
  dsimp only
  split <;> exact hclose _

end Calls

/-! ## The background thread -/

/-- The first error that is to be reported, once the requests for the data
partition have been written with result `ret`. -/
def owedByData (ret : Except TapeError Unit) (owed : Option TapeError) : Option TapeError :=
  match ret with
  | .ok () => owed
  | .error e => owed.or (some e)

/-- The same for the index partition, where running out of space is no error. -/
def owedByIndex (ret : Except TapeError Unit) (owed : Option TapeError) :
    Option TapeError :=
  match ret with
  | .ok () => owed
  | .error e => if outOfSpace e then owed else owed.or (some e)

section Parts

variable (C : Catalog σ (List β)) (m : Mount)

theorem takeRequests_stored (queue : RequestState) (s : State σ β) :
    storedError (takeRequests C m queue s).2.2 =
      owedByData (takeRequests C m queue s).1 (storedError s) := by
  rw [takeRequests]
  cases hp : s.file.ioschedPriv with
  | none => rfl
  | some p =>
    dsimp only
    rw [storedError_eq hp]
    cases (processRequests C m queue p.writeIp p.requests
        (startSweep p s)).1 with
    | ok _ => rfl
    | error e => exact handle_writeError_dp e _ _ _

theorem recordFailure_stored (e : TapeError) {s : State σ β}
    (hpriv : s.file.ioschedPriv ≠ none) :
    storedError (recordFailure e s) = (storedError s).or (some e) := by
  obtain ⟨p, hp⟩ := Option.ne_none_iff_exists'.1 hpriv
  rw [recordFailure, hp, storedError_eq hp]
  exact handle_writeError_dp e _ _ _

/-! ## The index partition -/

theorem updateAlt_ne_nil (bs : ℕ) (ext : Extent) (p : DentryPriv β) :
    (unifiedUpdateAltExtentlist bs ext p).altExtentlist ≠ [] := by
  rw [unifiedUpdateAltExtentlist]
  split_ifs
  · simp
  · exact altWalk_ne_nil bs ext _

/-- What writing the requests of a file to the index partition makes of the
stored error, unless a permanent error is replaced. -/
structure IndexStored (p : DentryPriv β) (s : State σ β)
    (r : TapeCall (DentryPriv β × State σ β) Unit) : Prop where
  file : r.2.2.file = s.file
  alt : p.altExtentlist ≠ [] → r.2.1.altExtentlist ≠ []
  stored : (∀ e, r.1 = .error e → e.isWritePerm = false) →
    r.2.1.writeError = owedByIndex r.1 p.writeError

theorem indexRequests_stored (requests front : List (WriteRequest β))
    (p : DentryPriv β) (s : State σ β) :
    IndexStored p s (indexRequests C m requests front (p, s)) := by
  induction requests generalizing front p s with
  | nil => exact ⟨rfl, id, fun _ => rfl⟩
  | cons req rest ih =>
    rw [indexRequests]
    split_ifs with hip
    · dsimp only
      split
      · rename_i start v _
        obtain ⟨ext, hext⟩ : ∃ ext, ext =
          writtenExtent .ip (start.getD 0) req.offset req.data := ⟨_, rfl⟩
        have hrest := ih front (unifiedUpdateAltExtentlist m.blockSize ext p)
          { s.handOver ⟨.ip, req.offset, req.data⟩ with
            raw := { s.raw with vol := v } }
        rw [hext] at hrest
        refine ⟨hrest.file, fun _ => hrest.alt (updateAlt_ne_nil _ _ p), ?_⟩
        intro hperm
        have hstored := hrest.stored hperm
        rwa [updateAlt_writeError] at hstored
      · rename_i e v _
        refine ⟨rfl, id, ?_⟩
        intro hperm
        simp [indexWriteError, hperm e rfl, handle_writeError, owedByIndex]
    · exact ih (front ++ [req]) p s

/-- The private data outlives the index queue where the file is open or has
alternate extents. -/
theorem unifiedProcessIndexQueue_stored {s : State σ β}
    (hperm : ∀ e, (unifiedProcessIndexQueue C m s).1 = .error e →
      e.isWritePerm = false)
    (hkept : ((unifiedProcessIndexQueue C m s).1 = .ok () ∧
        storedError s = none) ∨ 2 < s.file.numhandles ∨
      ∃ p, s.file.ioschedPriv = some p ∧ p.altExtentlist ≠ []) :
    storedError (unifiedProcessIndexQueue C m s).2 =
      owedByIndex (unifiedProcessIndexQueue C m s).1 (storedError s) := by
  rw [unifiedProcessIndexQueue] at hperm hkept ⊢
  cases hp : s.file.ioschedPriv with
  | none => rfl
  | some p =>
    have hindex := indexRequests_stored C m p.requests [] p s
    simp only [hp, Option.some.injEq, exists_eq_left'] at hperm hkept ⊢
    generalize indexRequests C m p.requests [] (p, s) = r at hindex hperm hkept ⊢
    obtain ⟨ret, q, t⟩ := r
    have hstored : q.writeError = owedByIndex ret (storedError s) := by
      rw [storedError_eq hp]
      exact hindex.stored hperm
    rw [← hstored]
    rw [storedError]
    rcases freeConditional_priv 2 (t.withPriv q).file with
      hsame | ⟨hnone, hhandles, halt⟩
    · rw [hsame]
      rfl
    · -- freed: then nothing has failed and nothing was stored
      rw [hnone]
      rcases hkept with ⟨hok, hclear⟩ | hopen | hextents
      · simp only at hok
        rw [hstored, hok, hclear]
        rfl
      · have hfile : t.file = s.file := hindex.file
        have hsame : t.file.numhandles ≤ 2 := hhandles
        rw [hfile] at hsame
        omega
      · exact absurd (halt q rfl) (hindex.alt hextents)

end Parts

end AuroraLtfs.Sched
