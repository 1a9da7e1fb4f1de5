import AuroraLtfs.Tape.Device

/-!
# Writing behind the append position

Everything below the append position of a partition is out of reach of the
writers: a write starts at the append position, and the append position never
moves below where it was.  `Grows` says so for one call; it is transitive, so
it holds of whole functions, whether the commands in them succeed or fail.
-/

namespace AuroraLtfs.Tape

variable {π : Type*} {d next : Device π}

namespace Device

/-- Where the next write to partition `p` starts. -/
def appendEnd (d : Device π) (p : Part) : ℕ :=
  if d.appendPos p = 0 then (d.medium p).length else d.appendPos p

/-- Recorded append positions lie on the recorded part of the tape. -/
def Sane (d : Device π) : Prop := ∀ p, d.appendPos p ≤ (d.medium p).length

/-- The device stands where the next write to `p` starts. -/
def AtAppend (d : Device π) (p : Part) : Prop :=
  d.position = ⟨p, d.appendEnd p⟩

/-- `next` has kept every record of `d` below its append positions. -/
structure Grows (d next : Device π) : Prop where
  sane : next.Sane
  appendEnd_le : ∀ p, d.appendEnd p ≤ next.appendEnd p
  kept : ∀ p i, i < d.appendEnd p →
    (next.medium p)[i]? = (d.medium p)[i]?

theorem appendEnd_le_length (hsane : d.Sane) (p : Part) :
    d.appendEnd p ≤ (d.medium p).length := by
  rw [appendEnd]
  split_ifs
  · exact le_rfl
  · exact hsane p

theorem Grows.refl (hsane : d.Sane) : d.Grows d :=
  ⟨hsane, fun _ => le_rfl, fun _ _ _ => rfl⟩

theorem Grows.trans {a b c : Device π} (hab : a.Grows b) (hbc : b.Grows c) : a.Grows c := by
  refine ⟨hbc.sane, ?_, ?_⟩
  · intro p
    exact (hab.appendEnd_le p).trans (hbc.appendEnd_le p)
  · intro p i hi
    rw [hbc.kept p i (hi.trans_le (hab.appendEnd_le p)), hab.kept p i hi]

/-- A call that moves neither medium nor append positions keeps everything. -/
theorem Grows.of_eq (hsane : d.Sane) (hmedium : next.medium = d.medium)
    (happend : next.appendPos = d.appendPos) : d.Grows next := by
  refine ⟨?_, ?_, ?_⟩
  · intro p
    rw [hmedium, happend]
    exact hsane p
  · intro p
    simp only [appendEnd, hmedium, happend, le_refl]
  · intro p i _
    rw [hmedium]

/-- From a sane device on only records at the append positions have been
written. -/
def Extends (d next : Device π) : Prop := d.Sane → d.Grows next

theorem Extends.refl (d : Device π) : d.Extends d := Grows.refl

theorem Extends.trans {a b c : Device π} (hab : a.Extends b)
    (hbc : b.Extends c) : a.Extends c := by
  intro hsane
  have hgrows := hab hsane
  exact hgrows.trans (hbc hgrows.sane)

/-- Forgetting the append position moves it to end of data. -/
theorem Grows.forget (hsane : d.Sane) (p : Part) : d.Grows (d.setAppendPos p 0) := by
  refine ⟨?_, ?_, ?_⟩
  · intro q
    by_cases hq : q = p
    · simp [hq]
    · simpa [setAppendPos_other d 0 hq] using hsane q
  · intro q
    by_cases hq : q = p
    · subst hq
      simpa [appendEnd] using appendEnd_le_length hsane q
    · simp [appendEnd, setAppendPos_other d 0 hq]
  · intro q i _
    rfl

end Device

/-! ## The medium after one write at the append position -/

theorem length_write_same (m : Medium π) (p : Part) {pos : ℕ}
    {rs : List (Record π)} (hrs : rs ≠ []) (hpos : pos ≤ (m p).length) :
    (m.write p pos rs p).length = pos + rs.length := by
  rw [Medium.write_same _ _ _ hrs, List.length_append, List.length_take, min_eq_left hpos]

/-- Whatever is recorded from the append position on, everything below it is
kept; the append position may stay or follow the new records. -/
theorem Device.Grows.of_tail {p : Part} (hsane : d.Sane) (tail : List (Record π))
    (hmedium : next.medium = Function.update d.medium p
      ((d.medium p).take (d.appendEnd p) ++ tail))
    (happend : next.appendPos p = d.appendPos p ∨
      next.appendPos p = d.appendEnd p + tail.length)
    (hother : ∀ q, q ≠ p → next.appendPos q = d.appendPos q) : d.Grows next := by
  have hle := Device.appendEnd_le_length hsane p
  have hlength : (next.medium p).length = d.appendEnd p + tail.length := by
    simp [hmedium, min_eq_left hle]
  refine ⟨?_, ?_, ?_⟩
  · intro q
    by_cases hq : q = p
    · subst hq
      rw [hlength]
      rcases happend with happend | happend
      · rw [happend]
        by_cases hzero : d.appendPos q = 0
        · simp [hzero]
        · simp [Device.appendEnd, hzero]
      · exact happend.le
    · rw [hother q hq, hmedium, Function.update_of_ne hq]
      exact hsane q
  · intro q
    by_cases hq : q = p
    · subst hq
      rcases happend with happend | happend
      · by_cases hzero : d.appendPos q = 0
        · have hnext : next.appendEnd q = (next.medium q).length := by
            simp [Device.appendEnd, happend, hzero]
          rw [hnext, hlength]
          exact Nat.le_add_right _ _
        · simp [Device.appendEnd, happend, hzero]
      · by_cases hzero : d.appendEnd q + tail.length = 0
        · have hnext : d.appendEnd q = 0 := by omega
          rw [hnext]
          exact Nat.zero_le _
        · simp [Device.appendEnd, happend] at hzero ⊢
          split_ifs at hzero ⊢ <;> omega
    · simp [Device.appendEnd, hother q hq, hmedium, Function.update_of_ne hq]
  · intro q i hi
    rw [hmedium]
    by_cases hq : q = p
    · subst hq
      have hi' : i < ((d.medium q).take (d.appendEnd q)).length := by
        rw [List.length_take]
        omega
      rw [Function.update_self, List.getElem?_append_left hi',
        List.getElem?_take, if_pos hi]
    · rw [Function.update_of_ne hq]

/-! ## The write commands -/

/-- A synchronisation moves nothing. -/
theorem backendWrite_nil (d : Device π) :
    (backendWrite [] d).2.medium = d.medium ∧
      (backendWrite [] d).2.appendPos = d.appendPos ∧
      (backendWrite [] d).2.position = d.position := by
  simp only [backendWrite]
  cases d.answer with
  | failed e residue =>
    have hmedium : residueMedium residue [] d = d.medium := by
      cases residue <;> simp [residueMedium]
    simp only [noteWriteError, hmedium]
    split_ifs <;> exact ⟨rfl, rfl, rfl⟩
  | done warning => simp

/-- A successful backend write has recorded `rs` and moved behind it. -/
theorem backendWrite_eq_ok {rs : List (Record π)} {warning : Warning}
    (h : backendWrite rs d = (.ok warning, next)) :
    next.medium = d.medium.write d.position.partition d.position.block rs ∧
      next.appendPos = d.appendPos ∧
      next.position = ⟨d.position.partition, d.position.block + rs.length⟩ := by
  simp only [backendWrite] at h
  split at h
  · simp at h
  · simp only [Prod.mk.injEq, Except.ok.injEq] at h
    obtain ⟨-, rfl⟩ := h
    exact ⟨rfl, rfl, rfl⟩

/-- Taking over the position after `rs` was recorded at the append position. -/
theorem finishWrite_grows {mid : Device π} {p : Part} {rs : List (Record π)}
    (hsane : d.Sane) (hmedium : mid.medium = d.medium.write p (d.appendEnd p) rs)
    (happend : mid.appendPos = d.appendPos)
    (hposition : mid.position = ⟨p, d.appendEnd p + rs.length⟩) (warning : Warning)
    (ignoreLess ignoreNospc : Bool) :
    d.Grows (finishWrite warning ignoreLess ignoreNospc mid).2 ∧
      (finishWrite warning ignoreLess ignoreNospc mid).2.AtAppend p := by
  have hle := Device.appendEnd_le_length hsane p
  have hnext : (finishWrite warning ignoreLess ignoreNospc mid).2.appendPos p =
      d.appendEnd p + rs.length := by
    simp [finishWrite, hposition]
  have hother : ∀ q, q ≠ p →
      (finishWrite warning ignoreLess ignoreNospc mid).2.appendPos q =
        d.appendPos q := by
    intro q hq
    simp [finishWrite, hposition, Device.setAppendPos_other _ _ hq, happend]
  constructor
  · by_cases hrs : rs = []
    · subst hrs
      apply Device.Grows.of_tail hsane ((d.medium p).drop (d.appendEnd p)) (p := p)
      · simp [finishWrite, hmedium]
      · by_cases hzero : d.appendPos p = 0
        · right
          simp [hnext, Device.appendEnd, hzero]
        · left
          simp [hnext, Device.appendEnd, hzero]
      · exact hother
    · apply Device.Grows.of_tail hsane rs (p := p)
      · simp [finishWrite, hmedium, Medium.write, hrs]
      · exact .inr hnext
      · exact hother
  · have hend : (finishWrite warning ignoreLess ignoreNospc mid).2.appendEnd p =
        d.appendEnd p + rs.length := by
      rw [Device.appendEnd, hnext]
      split_ifs with hzero
      · have hrs : rs = [] := List.length_eq_zero_iff.1 (by omega)
        have hempty : d.appendEnd p = 0 := by omega
        have hlength : (d.medium p).length = 0 := by
          rw [Device.appendEnd] at hempty
          split_ifs at hempty
          · exact hempty
          · contradiction
        simp [finishWrite, hmedium, hrs, hempty, hlength]
      · rfl
    rw [Device.AtAppend, hend]
    simp [finishWrite, hposition]

/-! ## The seek to the append position -/

theorem tapeSeek_frame (p : Part) (target : Target) (d : Device π) :
    (tapeSeek p target d).2.medium = d.medium ∧
      (tapeSeek p target d).2.appendPos = d.appendPos := by
  by_cases hhere : alreadyAt p target d
  · simp [tapeSeek, hhere]
  · cases hanswer : d.answer <;> simp [tapeSeek, hhere, hanswer]

theorem tapeRead_frame (d : Device π) :
    (tapeRead d).2.medium = d.medium ∧
      (tapeRead d).2.appendPos = d.appendPos := by
  rw [tapeRead]
  split <;> exact ⟨rfl, rfl⟩

/-- A successful locate has reached its target. -/
theorem tapeSeek_eq_ok {p : Part} {target : Target}
    (h : tapeSeek p target d = (.ok (), next)) :
    (∀ n, target = .block n → next.position = ⟨p, n⟩) ∧
      (target = .eod → next.position = ⟨p, (d.medium p).length⟩) := by
  by_cases hhere : alreadyAt p target d
  · simp only [tapeSeek, hhere, if_true, Prod.mk.injEq, true_and] at h
    subst h
    cases target with
    | block n =>
      simp only [alreadyAt, decide_eq_true_eq] at hhere
      obtain ⟨hpartition, hblock, -⟩ := hhere
      simp [hpartition, hblock]
    | eod => simp [alreadyAt] at hhere
  · cases hanswer : d.answer with
    | failed e residue => simp [tapeSeek, hhere, hanswer] at h
    | done warning =>
      simp only [tapeSeek, hhere, hanswer, Bool.false_eq_true, if_false, Prod.mk.injEq] at h
      obtain ⟨hstop, rfl⟩ := h
      simp only [Device.noteLocateWarning_position, Device.moveTo_position]
      cases target with
      | block n =>
        by_cases hreached : n = locateStop p (.block n) d
        · simp [← hreached]
        · simp [hreached] at hstop
      | eod => simp [locateStop]

theorem tapeSeek_appendTarget {p : Part}
    (h : tapeSeek p (appendTarget p d) d = (.ok (), next)) :
    next.position = ⟨p, d.appendEnd p⟩ := by
  obtain ⟨hblock, heod⟩ := tapeSeek_eq_ok h
  by_cases hzero : d.appendPos p = 0
  · rw [heod (by simp [appendTarget, hzero])]
    simp [Device.appendEnd, hzero]
  · rw [hblock (d.appendPos p) (by simp [appendTarget, hzero])]
    simp [Device.appendEnd, hzero]

theorem allowOverwrite_frame (d : Device π) :
    (allowOverwrite d).2.medium = d.medium ∧
      (allowOverwrite d).2.appendPos = d.appendPos ∧
      (allowOverwrite d).2.position = d.position := by
  simp only [allowOverwrite]
  cases d.answer <;> simp

/-- Recording the append position where the device stands does not move it. -/
theorem recordAppendPos_spec {p : Part} {mid : Device π} (hmedium : mid.medium = d.medium)
    (happend : mid.appendPos = d.appendPos) (hposition : mid.position = ⟨p, d.appendEnd p⟩) :
    (recordAppendPos p mid).medium = d.medium ∧
      (∀ q, (recordAppendPos p mid).appendEnd q = d.appendEnd q) ∧
      (d.Sane → (recordAppendPos p mid).Sane) ∧
      (recordAppendPos p mid).AtAppend p := by
  by_cases hzero : d.appendPos p = 0
  · have hend : d.appendEnd p = (d.medium p).length := by
      simp [Device.appendEnd, hzero]
    have hrecord : recordAppendPos p mid = mid.setAppendPos p (d.medium p).length := by
      simp [recordAppendPos, happend, hzero, hposition, hend]
    have hends : ∀ q, (recordAppendPos p mid).appendEnd q = d.appendEnd q := by
      intro q
      rw [hrecord]
      by_cases hq : q = p
      · subst hq
        simp [Device.appendEnd, hzero, hmedium]
      · simp [Device.appendEnd, Device.setAppendPos_other _ _ hq, hmedium, happend]
    refine ⟨by simp [hrecord, hmedium], hends, ?_, ?_⟩
    · intro hsane q
      rw [hrecord]
      by_cases hq : q = p
      · subst hq
        simp [hmedium]
      · simpa [Device.setAppendPos_other _ _ hq, hmedium, happend] using hsane q
    · rw [Device.AtAppend, hends p, hrecord]
      simp [hposition]
  · have hrecord : recordAppendPos p mid = mid := by
      simp [recordAppendPos, happend, hzero]
    have hends : ∀ q, mid.appendEnd q = d.appendEnd q := by
      intro q
      simp [Device.appendEnd, hmedium, happend]
    rw [hrecord]
    refine ⟨hmedium, hends, ?_, ?_⟩
    · intro hsane q
      rw [hmedium, happend]
      exact hsane q
    · rw [Device.AtAppend, hends p, hposition]

/-- The seek to the append position touches no record and does not move the
append position; when it succeeds the device stands there. -/
theorem tapeSeekAppendPosition_spec {p : Part} {unlockWrite : Bool}
    {r : Except TapeError Unit} (h : tapeSeekAppendPosition p unlockWrite d = (r, next)) :
    next.medium = d.medium ∧ (∀ q, next.appendEnd q = d.appendEnd q) ∧
      (d.Sane → next.Sane) ∧ (r = .ok () → next.AtAppend p) := by
  obtain ⟨hmedium, happend⟩ := tapeSeek_frame p (appendTarget p d) d
  rw [tapeSeekAppendPosition] at h
  cases hseek : tapeSeek p (appendTarget p d) d with
  | mk result mid =>
    rw [hseek] at h hmedium happend
    cases result with
    | error e =>
      simp only [Prod.mk.injEq] at h
      obtain ⟨rfl, rfl⟩ := h
      simp only at hmedium happend
      refine ⟨hmedium, ?_, ?_, ?_⟩
      · intro q
        simp [Device.appendEnd, hmedium, happend]
      · intro hsane q
        simpa [hmedium, happend] using hsane q
      · intro hok
        simp at hok
    | ok _ =>
      have hposition := tapeSeek_appendTarget hseek
      obtain ⟨last, hlast, rfl⟩ := Outcome.within_eq h
      have hframe : last.medium = mid.medium ∧
          last.appendPos = mid.appendPos ∧
          last.position = mid.position := by
        split_ifs at hlast
        · have := allowOverwrite_frame mid
          rwa [hlast] at this
        · simp only [Prod.mk.injEq] at hlast
          obtain ⟨-, rfl⟩ := hlast
          exact ⟨rfl, rfl, rfl⟩
      obtain ⟨hmedium', hends, hsane, hat⟩ := recordAppendPos_spec
        (hframe.1.trans hmedium) (hframe.2.1.trans happend)
        (hframe.2.2.trans hposition)
      exact ⟨hmedium', hends, hsane, fun _ => hat⟩

end AuroraLtfs.Tape
