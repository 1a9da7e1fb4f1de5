import AuroraLtfs.Lib.Outcome
import AuroraLtfs.Tape.Medium

/-!
# The tape device layer

The functions of `tape.c` that the index writer and the raw writer go through.
The drive behind them is an answer stream: its `n`th command succeeds, possibly
with an early-warning report, or fails with an error.  A failed write may leave
the medium untouched, cut at the write position, or with the record in place;
the host learns nothing about which.  Every medium a command leaves behind is
kept in `history`: these are the tapes a power failure can expose.
-/

namespace AuroraLtfs.Tape

/-- Error returns, by the names of `ltfs_error.h`. -/
inductive TapeError where
  | porOrBusReset
  | mediumMayBeChanged
  | reservationPreempted
  | registrationPreempted
  | realPowerOnReset
  | needFailover
  | mediumRemovalReq
  | rwPerm
  | writePerm
  | mediumFormatCorrupted
  | writeProtect
  | writeError
  | noSpace
  | lessSpace
  | rdonlyDenDrv
  | locateError
  | badLocate
  | unexpectedValue
  | badArg
  | rdonlyVolume
  | eodDetected
  | smallBlock
  | largeBlocksize
  | cacheIo
  | syncFailOnDp
  | deviceFenced
  | other (code : ℕ)
  deriving DecidableEq, Repr

namespace TapeError

/-- `NEED_REVAL`: the tape may have been changed behind our back. -/
def needReval : TapeError → Bool
  | porOrBusReset | mediumMayBeChanged | reservationPreempted
  | registrationPreempted | realPowerOnReset | needFailover => true
  | _ => false

/-- `IS_UNEXPECTED_MOVE`. -/
def isUnexpectedMove : TapeError → Bool
  | mediumRemovalReq => true
  | _ => false

/-- `IS_WRITE_PERM`. -/
def isWritePerm : TapeError → Bool
  | rwPerm | writePerm | mediumFormatCorrupted => true
  | _ => false

end TapeError

/-- The early-warning bits of the position a command reports. -/
inductive Warning where
  | clear
  | programmable
  | early
  deriving DecidableEq, Repr

/-- What a failed write leaves on the medium. -/
inductive Residue where
  | untouched
  | cut
  | written
  deriving DecidableEq, Repr

inductive Answer where
  | done (warning : Warning)
  | failed (error : TapeError) (residue : Residue)
  deriving DecidableEq, Repr

/-- `partition_space`. -/
inductive Space where
  | writable
  | lessSpace
  | noSpace
  deriving DecidableEq, Repr

/-- Lock status in the cartridge memory (`UNLOCKED_MAM`, ..., `PWE_MAM_BOTH`). -/
inductive VolStat where
  | unlocked
  | locked
  | pwe
  | permLocked
  | pweDp
  | pweIp
  | pweBoth
  deriving DecidableEq, Repr

@[ext]
structure Position where
  partition : Part
  block : ℕ
  deriving DecidableEq, Repr

/-- A locate target: a block number, or `TAPE_BLOCK_MAX` for end of data. -/
inductive Target where
  | block (number : ℕ)
  | eod
  deriving DecidableEq, Repr

structure Device (π : Type*) where
  medium : Medium π
  position : Position
  appendPos : Part → ℕ
  partitionSpace : Part → Space
  writeProtected : Bool
  writeError : Bool
  appendOnlyMode : Bool
  isReadonly : Bool
  isWorm : Bool
  volStat : VolStat
  answers : ℕ → Answer
  issued : ℕ
  history : List (Medium π)

variable {π : Type*} (d : Device π) (warning : Warning) (position : Position) (m : Medium π)

/-- A call of the tape layer. -/
abbrev TapeCall (σ α : Type*) := Outcome TapeError σ α

namespace Device

/-- The drive's answer to the next command. -/
def answer (d : Device π) : Answer := d.answers d.issued

/-- One command has been carried out and left `m` on the tape. -/
def issue (d : Device π) (m : Medium π) : Device π :=
  { d with medium := m, issued := d.issued + 1, history := m :: d.history }

/-- Record an early warning for the partition the device is positioned in. -/
def noteWarning (d : Device π) (warning : Warning) : Device π :=
  let p := d.position.partition
  match warning with
  | .clear => d
  | .early =>
    { d with partitionSpace := Function.update d.partitionSpace p .noSpace }
  | .programmable =>
    { d with partitionSpace := Function.update d.partitionSpace p .lessSpace }

/-- Record an early warning seen by a locate, where a full partition stays
full. -/
def noteLocateWarning (d : Device π) (warning : Warning) : Device π :=
  if warning = .programmable ∧
      d.partitionSpace d.position.partition = .noSpace then d
  else d.noteWarning warning

def moveTo (d : Device π) (position : Position) : Device π :=
  { d with position := position }

def setAppendPos (d : Device π) (p : Part) (block : ℕ) : Device π :=
  { d with appendPos := Function.update d.appendPos p block }

@[simp]
theorem issue_medium :
    (d.issue m).medium = m := rfl

@[simp]
theorem issue_position :
    (d.issue m).position = d.position := rfl

@[simp]
theorem issue_appendPos :
    (d.issue m).appendPos = d.appendPos := rfl

@[simp]
theorem noteWarning_medium : (d.noteWarning warning).medium = d.medium := by
  cases warning <;> rfl

@[simp]
theorem noteWarning_position : (d.noteWarning warning).position = d.position := by
  cases warning <;> rfl

@[simp]
theorem noteWarning_appendPos : (d.noteWarning warning).appendPos = d.appendPos := by
  cases warning <;> rfl

@[simp]
theorem noteLocateWarning_medium : (d.noteLocateWarning warning).medium = d.medium := by
  simp only [noteLocateWarning]
  split_ifs <;> simp

@[simp]
theorem noteLocateWarning_position :
    (d.noteLocateWarning warning).position = d.position := by
  simp only [noteLocateWarning]
  split_ifs <;> simp

@[simp]
theorem noteLocateWarning_appendPos :
    (d.noteLocateWarning warning).appendPos = d.appendPos := by
  simp only [noteLocateWarning]
  split_ifs <;> simp

@[simp]
theorem moveTo_medium :
    (d.moveTo position).medium = d.medium := rfl

@[simp]
theorem moveTo_position :
    (d.moveTo position).position = position := rfl

@[simp]
theorem moveTo_appendPos :
    (d.moveTo position).appendPos = d.appendPos := rfl

@[simp]
theorem setAppendPos_medium (p : Part) (block : ℕ) :
    (d.setAppendPos p block).medium = d.medium := rfl

@[simp]
theorem setAppendPos_position (p : Part) (block : ℕ) :
    (d.setAppendPos p block).position = d.position := rfl

@[simp]
theorem setAppendPos_same (p : Part) (block : ℕ) :
    (d.setAppendPos p block).appendPos p = block := by
  simp [setAppendPos]

theorem setAppendPos_other {p q : Part} (block : ℕ) (hne : q ≠ p) :
    (d.setAppendPos p block).appendPos q = d.appendPos q := by
  simp [setAppendPos, hne]

end Device

/-- `tape_read_only`. -/
def tapeReadOnly (p : Part) (d : Device π) : Except TapeError Unit :=
  if d.writeProtected then .error .writeProtect
  else if d.writeError then .error .writeError
  else match d.partitionSpace p with
    | .lessSpace => .error .lessSpace
    | .noSpace => .error .noSpace
    | .writable => if d.isReadonly then .error .rdonlyDenDrv else .ok ()

/-- The checks before a write: what the flags refuse without asking the
drive. -/
def writeRefusal (ignoreLess ignoreNospc : Bool) (d : Device π) : Option TapeError :=
  let space := d.partitionSpace d.position.partition
  if d.writeProtected then some .writeProtect
  else if d.writeError then some .writeError
  else if space = .noSpace ∧ ¬ignoreNospc then some .noSpace
  else if space = .lessSpace ∧ ¬ignoreLess then some .lessSpace
  else none

/-- A "real" write error refuses any additional write. -/
def noteWriteError (e : TapeError) (d : Device π) : Device π :=
  if e.needReval then d else { d with writeError := true }

/-- What an early warning turns the result of a completed write into. -/
def warningResult (warning : Warning) (ignoreLess ignoreNospc : Bool) :
    Except TapeError Unit :=
  match warning with
  | .early => if ignoreNospc then .ok () else .error .noSpace
  | .programmable => if ignoreLess then .ok () else .error .lessSpace
  | .clear => .ok ()

/-- The medium after a write of `rs` at the device's position that failed with
the given residue. -/
def residueMedium (residue : Residue) (rs : List (Record π)) (d : Device π) : Medium π :=
  match residue with
  | .untouched => d.medium
  | .cut => if rs = [] then d.medium
      else d.medium.cut d.position.partition d.position.block
  | .written => d.medium.write d.position.partition d.position.block rs

/-- The `write` and `writefm` commands of the backend. -/
def backendWrite (rs : List (Record π)) (d : Device π) : TapeCall (Device π) Warning :=
  let p := d.position.partition
  let pos := d.position.block
  match d.answer with
  | .failed e residue =>
    (.error e, noteWriteError e (d.issue (residueMedium residue rs d)))
  | .done warning =>
    (.ok warning,
      (d.issue (d.medium.write p pos rs)).moveTo ⟨p, pos + rs.length⟩)

/-- Take over the new position, and the warning it came with, after a write. -/
def finishWrite (warning : Warning) (ignoreLess ignoreNospc : Bool)
    (d : Device π) : TapeCall (Device π) Unit :=
  (warningResult warning ignoreLess ignoreNospc,
    (d.noteWarning warning).setAppendPos d.position.partition d.position.block)

/-- `tape_write`. -/
def tapeWrite (payload : π) (ignoreLess ignoreNospc : Bool) (d : Device π) :
    TapeCall (Device π) Unit :=
  match writeRefusal ignoreLess ignoreNospc d with
  | some e => (.error e, d)
  | none => (backendWrite [.block payload] d).andThen fun warning d =>
    finishWrite warning ignoreLess ignoreNospc d

/-- `tape_write_filemark`.  A synchronous file mark is followed by an empty
one, for drives that flush only then. -/
def tapeWriteFilemark (count : ℕ) (ignoreLess ignoreNospc immed : Bool)
    (d : Device π) : TapeCall (Device π) Unit :=
  match writeRefusal ignoreLess ignoreNospc d with
  | some e => (.error e, d)
  | none =>
    (backendWrite (List.replicate count .filemark) d).andThen fun warning d =>
      if ¬immed ∧ count ≠ 0 then
        (backendWrite [] d).andThen fun warning d =>
          finishWrite warning ignoreLess ignoreNospc d
      else finishWrite warning ignoreLess ignoreNospc d

/-- The device is already at the target.  The beginning of the tape is always
located explicitly. -/
def alreadyAt (p : Part) (target : Target) (d : Device π) : Bool :=
  match target with
  | .block n =>
    p = d.position.partition ∧ n = d.position.block ∧ ¬(p = .ip ∧ n = 0)
  | .eod => false

/-- Where a locate stops: no further than end of data. -/
def locateStop (p : Part) (target : Target) (d : Device π) : ℕ :=
  match target with
  | .block n => min n (d.medium p).length
  | .eod => (d.medium p).length

/-- `tape_seek`.  Stopping short of a block number is a bad locate.  A locate is
a read operation, so a write-perm answer to it is turned into a locate
error. -/
def tapeSeek (p : Part) (target : Target) (d : Device π) : TapeCall (Device π) Unit :=
  if alreadyAt p target d then (.ok (), d)
  else match d.answer with
    | .failed e _ =>
      (.error (if e.isWritePerm then .locateError else e), d.issue d.medium)
    | .done warning =>
      let stop := locateStop p target d
      (if target = .eod ∨ target = .block stop then .ok ()
          else .error .badLocate,
        ((d.issue d.medium).moveTo ⟨p, stop⟩).noteLocateWarning warning)

/-- The `allow_overwrite` command, which unlocks an append-only medium. -/
def allowOverwrite (d : Device π) : TapeCall (Device π) Unit :=
  match d.answer with
  | .failed e _ => (.error e, d.issue d.medium)
  | .done _ => (.ok (), d.issue d.medium)

/-- A zero append position stands for end of data. -/
def appendTarget (p : Part) (d : Device π) : Target :=
  if d.appendPos p = 0 then .eod else .block (d.appendPos p)

def recordAppendPos (p : Part) (d : Device π) : Device π :=
  if d.appendPos p = 0 then d.setAppendPos p d.position.block else d

/-- `tape_seek_append_position`. -/
def tapeSeekAppendPosition (p : Part) (unlockWrite : Bool) (d : Device π) :
    TapeCall (Device π) Unit :=
  match tapeSeek p (appendTarget p d) d with
  | (.error e, next) => (.error e, { next with writeError := true })
  | (.ok (), next) =>
    let ret := if unlockWrite ∧ d.appendOnlyMode ∧ appendTarget p d ≠ .eod then
        allowOverwrite next else (.ok (), next)
    ret.within (recordAppendPos p)

/-- `tape_read`: the block at the current position, or `none` for a file
mark. -/
def tapeRead (d : Device π) : TapeCall (Device π) (Option π) :=
  let next := (d.issue d.medium).moveTo
    ⟨d.position.partition, d.position.block + 1⟩
  match d.answer, (d.medium d.position.partition)[d.position.block]? with
  | .failed e _, _ => (.error e, d.issue d.medium)
  | .done _, none => (.error .eodDetected, d.issue d.medium)
  | .done _, some .filemark => (.ok none, next)
  | .done _, some (.block payload) => (.ok (some payload), next)

/-- `tape_get_position`: the cached position. -/
def tapeGetPosition (d : Device π) : Except TapeError Position := .ok d.position

/-- `tape_set_ip_append_position`. -/
def tapeSetIpAppendPosition (block : ℕ) (d : Device π) : Device π :=
  match d.answer with
  | .failed _ _ => (d.issue d.medium).setAppendPos .ip block
  | .done _ =>
    (d.issue d.medium).setAppendPos .ip (if d.isWorm then 0 else block)

/-- `tape_get_cart_volume_lock_status`. -/
def tapeGetCartVolumeLockStatus (d : Device π) : TapeCall (Device π) VolStat :=
  match d.answer with
  | .failed e _ => (.error e, d.issue d.medium)
  | .done _ => (.ok d.volStat, d.issue d.medium)

/-- `tape_set_cart_volume_lock_status`. -/
def tapeSetCartVolumeLockStatus (status : VolStat) (d : Device π) :
    TapeCall (Device π) Unit :=
  let current := tapeGetCartVolumeLockStatus d
  let d := current.2
  if current.1 = .ok status then (.ok (), d)
  else if current.1 = .ok .permLocked then (.error .unexpectedValue, d)
  else match d.answer with
    | .failed e _ => (.error e, d.issue d.medium)
    | .done _ => (.ok (), { d.issue d.medium with volStat := status })

end AuroraLtfs.Tape
