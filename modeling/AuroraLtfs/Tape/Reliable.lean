import AuroraLtfs.Tape.Append

/-!
# A drive without errors

On a writable volume whose drive carries out every command, the calls of the
tape layer succeed and leave the drive as reliable as it was.
-/

namespace AuroraLtfs.Tape

variable {π : Type*}

/-- No command fails or warns, and nothing refuses a write. -/
structure Device.Reliable (d : Device π) : Prop where
  answers : ∀ n, d.answers n = .done .clear
  writeProtected : d.writeProtected = false
  writeError : d.writeError = false
  partitionSpace : ∀ p, d.partitionSpace p = .writable
  isReadonly : d.isReadonly = false

namespace Device.Reliable

variable {d : Device π} (h : d.Reliable)

include h

theorem answer : d.answer = .done .clear := h.answers d.issued

theorem issue (m : Medium π) : (d.issue m).Reliable :=
  ⟨h.answers, h.writeProtected, h.writeError, h.partitionSpace, h.isReadonly⟩

theorem moveTo (position : Position) : (d.moveTo position).Reliable :=
  ⟨h.answers, h.writeProtected, h.writeError, h.partitionSpace, h.isReadonly⟩

theorem setAppendPos (p : Part) (block : ℕ) : (d.setAppendPos p block).Reliable :=
  ⟨h.answers, h.writeProtected, h.writeError, h.partitionSpace, h.isReadonly⟩

theorem recordAppendPos (p : Part) : (recordAppendPos p d).Reliable := by
  rw [Tape.recordAppendPos]
  split_ifs
  · exact h.setAppendPos p _
  · exact h

theorem tapeReadOnly (p : Part) : tapeReadOnly p d = .ok () := by
  simp [Tape.tapeReadOnly, h.writeProtected, h.writeError, h.partitionSpace, h.isReadonly]

theorem writeRefusal (ignoreLess ignoreNospc : Bool) :
    writeRefusal ignoreLess ignoreNospc d = none := by
  simp [Tape.writeRefusal, h.writeProtected, h.writeError, h.partitionSpace]

theorem backendWrite (rs : List (Record π)) :
    backendWrite rs d = (.ok .clear, (d.issue (d.medium.write
      d.position.partition d.position.block rs)).moveTo
        ⟨d.position.partition, d.position.block + rs.length⟩) := by
  simp [Tape.backendWrite, h.answer]

/-- A block is written where the device stands. -/
theorem tapeWrite (payload : π) (ignoreLess ignoreNospc : Bool) :
    ∃ next, tapeWrite payload ignoreLess ignoreNospc d = (.ok (), next) ∧
      next.Reliable ∧
      next.medium = d.medium.write d.position.partition d.position.block
        [.block payload] ∧
      next.position = ⟨d.position.partition, d.position.block + 1⟩ := by
  simp only [Tape.tapeWrite, h.writeRefusal, h.backendWrite,
    Outcome.andThen_ok, finishWrite, warningResult]
  exact ⟨_, rfl, ((h.issue _).moveTo _).setAppendPos _ _, rfl, rfl⟩

theorem tapeWriteFilemark (count : ℕ) (ignoreLess ignoreNospc immed : Bool) :
    ∃ next, tapeWriteFilemark count ignoreLess ignoreNospc immed d =
      (.ok (), next) ∧ next.Reliable := by
  simp only [Tape.tapeWriteFilemark, h.writeRefusal, h.backendWrite, Outcome.andThen_ok]
  have hmid := (h.issue (d.medium.write d.position.partition d.position.block
    (List.replicate count .filemark))).moveTo
      ⟨d.position.partition, d.position.block +
        (List.replicate count (.filemark : Record π)).length⟩
  split_ifs
  · simp only [hmid.backendWrite, Outcome.andThen_ok, finishWrite, warningResult]
    exact ⟨_, rfl, ((hmid.issue _).moveTo _).setAppendPos _ _⟩
  · exact ⟨_, rfl, hmid.setAppendPos _ _⟩

/-- A locate to a recorded block or to end of data arrives. -/
theorem tapeSeek (p : Part) (target : Target)
    (hrecorded : ∀ n, target = .block n → n ≤ (d.medium p).length) :
    ∃ next, tapeSeek p target d = (.ok (), next) ∧ next.Reliable := by
  by_cases hhere : alreadyAt p target d
  · exact ⟨d, by simp [Tape.tapeSeek, hhere], h⟩
  · have hreached : target = .eod ∨ target = .block (locateStop p target d) := by
      cases target with
      | block n =>
        right
        rw [locateStop, min_eq_left (hrecorded n rfl)]
      | eod => exact .inl rfl
    refine ⟨((d.issue d.medium).moveTo
      ⟨p, locateStop p target d⟩).noteLocateWarning .clear, ?_, ?_⟩
    · simp [Tape.tapeSeek, hhere, h.answer, hreached]
    · simpa [Device.noteLocateWarning, Device.noteWarning] using
        (h.issue d.medium).moveTo ⟨p, locateStop p target d⟩

theorem tapeSeekAppendPosition (hsane : d.Sane) (p : Part) (unlockWrite : Bool) :
    ∃ next, tapeSeekAppendPosition p unlockWrite d = (.ok (), next) ∧
      next.Reliable := by
  have hrecorded : ∀ n, appendTarget p d = .block n → n ≤ (d.medium p).length := by
    intro n hn
    rw [appendTarget] at hn
    split_ifs at hn
    simp only [Target.block.injEq] at hn
    rw [← hn]
    exact hsane p
  obtain ⟨mid, hseek, hmid⟩ := h.tapeSeek p (appendTarget p d) hrecorded
  simp only [Tape.tapeSeekAppendPosition, hseek]
  split_ifs
  · simp only [allowOverwrite, hmid.answer, Outcome.within]
    exact ⟨_, rfl, (hmid.issue _).recordAppendPos p⟩
  · exact ⟨_, rfl, hmid.recordAppendPos p⟩

theorem lockStatus : tapeGetCartVolumeLockStatus d = (.ok d.volStat, d.issue d.medium) := by
  simp [tapeGetCartVolumeLockStatus, h.answer]

theorem tapeSetIpAppendPosition (block : ℕ) : (tapeSetIpAppendPosition block d).Reliable := by
  simp only [Tape.tapeSetIpAppendPosition, h.answer]
  exact (h.issue _).setAppendPos _ _

/-- The block the device stands at is read. -/
theorem tapeRead {payload : π}
    (hblock : (d.medium d.position.partition)[d.position.block]? = some (.block payload)) :
    tapeRead d = (.ok (some payload), (d.issue d.medium).moveTo
      ⟨d.position.partition, d.position.block + 1⟩) := by
  simp [Tape.tapeRead, h.answer, hblock]

end Device.Reliable

end AuroraLtfs.Tape
