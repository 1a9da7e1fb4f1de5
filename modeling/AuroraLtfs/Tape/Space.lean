import AuroraLtfs.Tape.Device

/-!
# Spacing over file marks

`tape_spacefm` moves behind a file mark ahead or in front of one behind, and
`tape_seek_eod` to end of data.  A drive that carries out every command reads
and moves as the records of the partition say; `Stands` is the state of such a
drive.
-/

namespace AuroraLtfs.Tape

variable {π : Type*}

/-- How many records come before the first file mark. -/
def filemarkAhead : List (Record π) → Option ℕ
  | [] => none
  | .filemark :: _ => some 0
  | .block _ :: rs => (filemarkAhead rs).map (· + 1)

/-- Behind the `count`th file mark from `pos` on; `error` is where the drive
stops short, at end of data. -/
def spaceForward (rs : List (Record π)) : ℕ → ℕ → Except ℕ ℕ
  | 0, pos => .ok pos
  | count + 1, pos =>
    match filemarkAhead (rs.drop pos) with
    | none => .error rs.length
    | some n => spaceForward rs count (pos + n + 1)

/-- In front of the `count`th file mark before `pos`; `error` is where the drive
stops short, at the beginning of the partition. -/
def spaceBackward (rs : List (Record π)) : ℕ → ℕ → Except ℕ ℕ
  | 0, pos => .ok pos
  | count + 1, pos =>
    match filemarkAhead (rs.take pos).reverse with
    | none => .error 0
    | some n => spaceBackward rs count ((rs.take pos).length - 1 - n)

/-- `EDEV_BOP_DETECTED`. -/
def bopDetected : TapeError := .other 20006

/-- `tape_spacefm`. -/
def tapeSpacefm (count : ℤ) (d : Device π) : TapeCall (Device π) Unit :=
  let p := d.position.partition
  match d.answer with
  | .failed e _ => (.error e, d.issue d.medium)
  | .done _ =>
    if 0 < count then
      match spaceForward (d.medium p) count.toNat d.position.block with
      | .ok pos => (.ok (), (d.issue d.medium).moveTo ⟨p, pos⟩)
      | .error pos => (.error .eodDetected, (d.issue d.medium).moveTo ⟨p, pos⟩)
    else
      match spaceBackward (d.medium p) (-count).toNat d.position.block with
      | .ok pos => (.ok (), (d.issue d.medium).moveTo ⟨p, pos⟩)
      | .error pos => (.error bopDetected, (d.issue d.medium).moveTo ⟨p, pos⟩)

/-- `tape_seek_eod`, which also makes end of data the append position. -/
def tapeSeekEod (p : Part) (d : Device π) : TapeCall (Device π) Unit :=
  match d.answer with
  | .failed e _ =>
    (.error (if e.isWritePerm then .locateError else e), d.issue d.medium)
  | .done warning =>
    let stop := (d.medium p).length
    (.ok (), (((d.issue d.medium).moveTo ⟨p, stop⟩).noteLocateWarning
      warning).setAppendPos p stop)

/-! ## Records between file marks -/

/-- A run of data blocks. -/
def blocks (payloads : List π) : List (Record π) := payloads.map .block

@[simp]
theorem length_blocks (payloads : List π) : (blocks payloads).length = payloads.length := by
  simp [blocks]

@[simp]
theorem blocks_nil : blocks ([] : List π) = [] := rfl

@[simp]
theorem blocks_cons (payload : π) (payloads : List π) :
    blocks (payload :: payloads) = .block payload :: blocks payloads := rfl

theorem filemarkAhead_blocks (payloads : List π) :
    filemarkAhead (blocks payloads) = none := by
  induction payloads with
  | nil => rfl
  | cons payload rest ih => rw [blocks_cons, filemarkAhead, ih, Option.map_none]

theorem filemarkAhead_blocks_append (payloads : List π) (rs : List (Record π)) :
    filemarkAhead (blocks payloads ++ .filemark :: rs) = some payloads.length := by
  induction payloads with
  | nil => rfl
  | cons payload rest ih =>
    rw [blocks_cons, List.cons_append, filemarkAhead, ih, Option.map_some, List.length_cons]

/-- Going back over one record. -/
theorem spaceBackward_step {rs : List (Record π)} {pos : ℕ} {r : Record π}
    (h : rs[pos]? = some r) (count : ℕ) :
    spaceBackward rs (count + 1) (pos + 1) =
      spaceBackward rs (if r.isMark then count else count + 1) pos := by
  obtain ⟨hlt, -⟩ := List.getElem?_eq_some_iff.1 h
  have hlength : (rs.take pos).length = pos := List.length_take_of_le hlt.le
  rw [spaceBackward, List.take_add_one, h, List.reverse_append, List.length_append, hlength]
  cases r with
  | filemark => simp [filemarkAhead, Record.isMark]
  | block payload =>
    simp only [Option.toList_some, List.reverse_cons, List.reverse_nil,
      List.nil_append, List.cons_append, filemarkAhead, Record.isMark, spaceBackward,
      hlength, Bool.false_eq_true, if_false]
    cases filemarkAhead (rs.take pos).reverse with
    | none => rfl
    | some n =>
      simp only [Option.map_some, List.length_cons, List.length_nil]
      congr 1
      omega

/-- From anywhere behind a file mark, with no other mark in between, one step
back leads in front of it. -/
theorem spaceBackward_one {rs front tail : List (Record π)} {payloads : List π}
    (hrs : rs = front ++ .filemark :: (blocks payloads ++ tail)) (count k : ℕ)
    (hk : k ≤ payloads.length) :
    spaceBackward rs (count + 1) (front.length + 1 + k) =
      spaceBackward rs count front.length := by
  induction k with
  | zero =>
    rw [Nat.add_zero, spaceBackward_step (r := .filemark) (by simp [hrs])]
    rfl
  | succ k ih =>
    have hblock : rs[front.length + 1 + k]? = some (.block (payloads.get ⟨k, hk⟩)) := by
      rw [hrs, List.getElem?_append_right (by omega), Nat.add_assoc,
        Nat.add_sub_cancel_left, Nat.add_comm 1, List.getElem?_cons_succ,
        List.getElem?_append_left (by simpa using hk)]
      simp [blocks, List.getElem?_eq_getElem hk]
    rw [← Nat.add_assoc, spaceBackward_step hblock]
    exact ih (by omega)

/-- One step forward leads behind the next file mark. -/
theorem spaceForward_one {rs front tail : List (Record π)} {payloads : List π}
    (hrs : rs = front ++ (blocks payloads ++ .filemark :: tail)) (k : ℕ)
    (hk : k ≤ payloads.length) :
    spaceForward rs 1 (front.length + k) =
      .ok (front.length + payloads.length + 1) := by
  have hdrop : rs.drop (front.length + k) =
      blocks (payloads.drop k) ++ .filemark :: tail := by
    rw [hrs, List.drop_append, List.drop_of_length_le (by omega),
      show front.length + k - front.length = k by omega, List.nil_append,
      List.drop_append_of_le_length (by simpa using hk)]
    simp [blocks, List.map_drop]
  rw [spaceForward, hdrop, filemarkAhead_blocks_append]
  simp only [spaceForward, List.length_drop]
  congr 1
  omega

/-- Without a file mark ahead a step forward stops at end of data. -/
theorem spaceForward_eod {rs front : List (Record π)} {payloads : List π}
    (hrs : rs = front ++ blocks payloads) (k : ℕ) :
    spaceForward rs 1 (front.length + k) = .error rs.length := by
  have hdrop : rs.drop (front.length + k) = blocks (payloads.drop k) := by
    rw [hrs, List.drop_append, List.drop_of_length_le (by omega),
      show front.length + k - front.length = k by omega, List.nil_append]
    simp [blocks, List.map_drop]
  rw [spaceForward, hdrop, filemarkAhead_blocks]

/-! ## A drive that carries out every command -/

/-- No command fails. -/
def Device.Responsive (d : Device π) : Prop :=
  ∀ n, ∃ warning, d.answers n = .done warning

/-- A drive with `m` loaded that carries out every command. -/
def loaded (m : Medium π) : Device π where
  medium := m
  position := ⟨.ip, 0⟩
  appendPos := fun _ => 0
  partitionSpace := fun _ => .writable
  writeProtected := false
  writeError := false
  appendOnlyMode := false
  isReadonly := false
  isWorm := false
  volStat := .unlocked
  answers := fun _ => .done .clear
  issued := 0
  history := []

theorem loaded_responsive (m : Medium π) : (loaded m).Responsive :=
  fun _ => ⟨.clear, rfl⟩

/-- The drive carries out every command, partition `p` holds `rs`, and the tape
is positioned at block `pos` of it. -/
structure Device.Stands (p : Part) (rs : List (Record π)) (pos : ℕ)
    (d : Device π) : Prop where
  responsive : d.Responsive
  medium : d.medium p = rs
  position : d.position = ⟨p, pos⟩

namespace Device.Stands

variable {p : Part} {rs : List (Record π)} {pos : ℕ} {d : Device π}

/-- The command has been carried out and the tape is at `pos`. -/
theorem moved (h : d.Stands p rs pos) (next : ℕ) :
    ((d.issue d.medium).moveTo ⟨p, next⟩).Stands p rs next :=
  ⟨h.responsive, h.medium, rfl⟩

theorem tapeRead_block (h : d.Stands p rs pos) {payload : π}
    (hblock : rs[pos]? = some (.block payload)) :
    ∃ next, tapeRead d = (.ok (some payload), next) ∧
      next.Stands p rs (pos + 1) := by
  obtain ⟨warning, hanswer⟩ := h.responsive d.issued
  refine ⟨_, ?_, h.moved (pos + 1)⟩
  simp [tapeRead, Device.answer, hanswer, h.position, h.medium, hblock]

theorem tapeRead_filemark (h : d.Stands p rs pos) (hmark : rs[pos]? = some .filemark) :
    ∃ next, tapeRead d = (.ok none, next) ∧ next.Stands p rs (pos + 1) := by
  obtain ⟨warning, hanswer⟩ := h.responsive d.issued
  refine ⟨_, ?_, h.moved (pos + 1)⟩
  simp [tapeRead, Device.answer, hanswer, h.position, h.medium, hmark]

theorem spaceForward (h : d.Stands p rs pos) {next : ℕ}
    (hspace : spaceForward rs 1 pos = .ok next) :
    ∃ e, tapeSpacefm 1 d = (.ok (), e) ∧ e.Stands p rs next := by
  obtain ⟨warning, hanswer⟩ := h.responsive d.issued
  refine ⟨_, ?_, h.moved next⟩
  simp [tapeSpacefm, Device.answer, hanswer, h.position, h.medium, hspace]

theorem spaceForward_fails (h : d.Stands p rs pos) {next : ℕ}
    (hspace : Tape.spaceForward rs 1 pos = .error next) :
    ∃ e, tapeSpacefm 1 d = (.error .eodDetected, e) ∧ e.Stands p rs next := by
  obtain ⟨warning, hanswer⟩ := h.responsive d.issued
  refine ⟨_, ?_, h.moved next⟩
  simp [tapeSpacefm, Device.answer, hanswer, h.position, h.medium, hspace]

theorem spaceBackward (h : d.Stands p rs pos) {count next : ℕ}
    (hspace : Tape.spaceBackward rs count pos = .ok next) :
    ∃ e, tapeSpacefm (-count) d = (.ok (), e) ∧ e.Stands p rs next := by
  obtain ⟨warning, hanswer⟩ := h.responsive d.issued
  refine ⟨_, ?_, h.moved next⟩
  simp [tapeSpacefm, Device.answer, hanswer, h.position, h.medium, hspace]

end Device.Stands

theorem tapeSeekEod_stands {d : Device π} (h : d.Responsive) (p : Part) :
    ∃ e, tapeSeekEod p d = (.ok (), e) ∧
      e.Stands p (d.medium p) (d.medium p).length := by
  obtain ⟨warning, hanswer⟩ := h d.issued
  rw [tapeSeekEod, Device.answer, hanswer]
  refine ⟨_, rfl, ?_, by simp, by simp⟩
  intro n
  obtain ⟨other, hother⟩ := h n
  refine ⟨other, ?_⟩
  simp only [Device.setAppendPos, Device.noteLocateWarning, Device.noteWarning]
  split_ifs <;> cases warning <;> exact hother

end AuroraLtfs.Tape
