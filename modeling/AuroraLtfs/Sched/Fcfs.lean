import AuroraLtfs.Lib.Runs
import AuroraLtfs.Sched.Pool

/-!
# The first-come first-served scheduler

`fcfs` hands every call to raw access at once, and all files share one volume.
Whatever the drive answers, and whatever indexes are written in between, each file
holds what its own successful calls have made of it.
-/

namespace AuroraLtfs.Fcfs

open AuroraLtfs.Tape
open AuroraLtfs.Index
open AuroraLtfs.Raw

variable {ι σ β : Type*} [DecidableEq ι]

/-- The volume and the dentries of its files. -/
structure State (ι σ β : Type*) where
  raw : RawVol σ β
  dentry : ι → Dentry

/-- What raw access to file `i` works on. -/
def State.file (s : State ι σ β) (i : ι) : FileState σ β := (s.raw, s.dentry i)

def State.put (s : State ι σ β) (i : ι) (file : FileState σ β) : State ι σ β where
  raw := file.1
  dentry := Function.update s.dentry i file.2

/-- The calls of the scheduler that reach the volume, the index writes between them,
and `touch` for whatever else changes what is known of the volume, the dirty marks of
the calls themselves among it. -/
inductive Call (ι σ β : Type*)
  | fcfsRead (i : ι) (offset size : ℕ)
  | fcfsWrite (i : ι) (offset : ℕ) (bytes : List β)
  | fcfsTruncate (i : ι) (length : ℕ)
  | writeIndex (p : Part) (reason : SyncReason) (type : IndexType)
  | touch (v : Vol σ β)

variable [Zero β] (C : Catalog σ (List β)) (bs : ℕ)

def Call.exec (s : State ι σ β) : Call ι σ β → TapeCall (State ι σ β) (List β)
  | .fcfsRead i offset size => (ltfsFsrawRead bs offset size (s.file i)).within (s.put i)
  | .fcfsWrite i offset bytes =>
    ((ltfsFsrawWrite C bs .dp offset bytes (s.file i)).within (s.put i)).andThen
      fun _ s => (.ok [], s)
  | .fcfsTruncate i length => (.ok [], s.put i (s.raw, ltfsFsrawTruncate length (s.dentry i)))
  | .writeIndex p reason type =>
    ((ltfsWriteIndex C p reason type s.raw.vol).within fun v =>
      { s with raw := { s.raw with vol := v } }).andThen fun _ s => (.ok [], s)
  | .touch v =>
    (.ok [], { s with raw := { s.raw with vol := v.withDevice s.raw.vol.device } })

/-- What a call with result `r` means for the files. -/
def Call.apply (r : Except TapeError (List β)) (f : ι → ByteFile β) :
    Call ι σ β → ι → ByteFile β
  | .fcfsWrite i offset bytes =>
    if r.isOk then Function.update f i ((f i).write offset bytes) else f
  | .fcfsTruncate i length => Function.update f i ((f i).truncate length)
  | _ => f

/-- The call on the volume, and beside it what it means. -/
def step (call : Call ι σ β) (x : State ι σ β × (ι → ByteFile β)) :
    State ι σ β × (ι → ByteFile β) :=
  ((call.exec C bs x.1).2, call.apply (call.exec C bs x.1).1 x.2)

/-- A write has something to write and ends a block short of the 64-bit range. -/
def Call.InRange : Call ι σ β → Prop
  | .fcfsWrite _ offset bytes => bytes ≠ [] ∧ offset + bytes.length + bs ≤ 2 ^ 64
  | _ => True

/-- The files are what they are meant to be. -/
def Shows (s : State ι σ β) (f : ι → ByteFile β) : Prop :=
  ∀ i, SoundFile bs (s.file i) ∧ fileOf bs (s.file i) = f i

variable {C bs} {s : State ι σ β} {f : ι → ByteFile β}

omit [DecidableEq ι] in
/-- What is added to the tape leaves the files alone. -/
theorem Shows.grows (h : Shows bs s f) {raw : RawVol σ β}
    (hgrows : s.raw.vol.device.Grows raw.vol.device) : Shows bs { s with raw } f := by
  intro i
  obtain ⟨hsound, hsame⟩ := (h i).1.grows hgrows
  refine ⟨⟨hsound.sane, hsound.dentry⟩, ?_⟩
  rw [← (h i).2, fileOf_eq, fileOf_eq, ← hsame]
  rfl

/-- A call on file `i` leaves the other files alone. -/
theorem Shows.put (h : Shows bs s f) (i : ι) {file : FileState σ β} {g : ByteFile β}
    (hgrows : s.raw.vol.device.Grows file.1.vol.device) (hsound : SoundFile bs file)
    (hfile : fileOf bs file = g) : Shows bs (s.put i file) (Function.update f i g) := by
  intro j
  by_cases hj : j = i
  · subst hj
    simpa [State.file, State.put] using ⟨hsound, hfile⟩
  · simpa [State.file, State.put, hj] using h.grows hgrows j

/-- One call, whether it succeeds or fails. -/
theorem Shows.step (hbs : 0 < bs) (h : Shows bs s f) (hsane : s.raw.vol.device.Sane)
    {call : Call ι σ β} (hrange : call.InRange bs) :
    Shows bs (step C bs call (s, f)).1 (step C bs call (s, f)).2 ∧
      s.raw.vol.device.Grows (step C bs call (s, f)).1.raw.vol.device := by
  cases call with
  | fcfsRead i offset size =>
    obtain ⟨hextends, hdentry⟩ :=
      ltfsFsrawRead_reads Sched.passive_extends bs offset size (s.file i)
    rw [Fcfs.step, Call.exec]
    rcases hr : ltfsFsrawRead bs offset size (s.file i) with ⟨ret, raw, d⟩
    rw [hr] at hextends hdentry
    obtain rfl : d = s.dentry i := hdentry
    obtain ⟨hsound, hfile⟩ := h.grows (hextends hsane) i
    have hshown := h.put i (hextends hsane) hsound hfile
    rw [Function.update_eq_self] at hshown
    exact ⟨hshown, hextends hsane⟩
  | fcfsWrite i offset bytes =>
    obtain ⟨hsound, hgrows, hcells⟩ :=
      ltfsFsrawWrite_sound C hbs (h i).1 .dp hrange.1 hrange.2
    have hfile := fileOf_eq bs (ltfsFsrawWrite C bs .dp offset bytes (s.file i)).2
    rw [hcells] at hfile
    rw [Fcfs.step, Call.exec]
    rcases hr : ltfsFsrawWrite C bs .dp offset bytes (s.file i) with ⟨e | _, file⟩ <;>
      rw [hr] at hsound hgrows hfile
    · have hkept := h.put i hgrows hsound (hfile.trans ((fileOf_eq _ _).symm.trans (h i).2))
      rw [Function.update_eq_self] at hkept
      exact ⟨hkept, hgrows⟩
    · refine ⟨h.put i hgrows hsound ?_, hgrows⟩
      rw [hfile, ByteFile.fill_put, ← fileOf_eq, (h i).2]
  | fcfsTruncate i length =>
    obtain ⟨hvalid, hcells⟩ := ltfsFsrawTruncate_spec (h i).1.dentry length
    refine ⟨h.put i (.refl hsane) ⟨hsane, hvalid⟩ ?_, .refl hsane⟩
    dsimp only
    rw [fileOf_eq, ← (h i).2, fileOf_eq, ← ByteFile.fill_truncate]
    exact congrArg (·.fill) hcells
  | writeIndex p reason type =>
    have hgrows := ltfsWriteIndex_keepsTape C p reason type s.raw.vol hsane
    rw [Fcfs.step, Call.exec]
    rcases hr : ltfsWriteIndex C p reason type s.raw.vol with ⟨_ | _, v⟩ <;>
      rw [hr] at hgrows <;> exact ⟨h.grows hgrows, hgrows⟩
  | touch v => exact ⟨h.grows (.refl hsane), .refl hsane⟩

section Run

variable (hbs : 0 < bs) (calls : List (Call ι σ β)) (hrange : ∀ call ∈ calls, call.InRange bs)
  (hsane : s.raw.vol.device.Sane) (h : Shows bs s f)

include hbs hrange hsane h

theorem Shows.run :
    Shows bs (runSteps (Fcfs.step C bs) calls (s, f)).1
        (runSteps (Fcfs.step C bs) calls (s, f)).2 ∧
      s.raw.vol.device.Grows (runSteps (Fcfs.step C bs) calls (s, f)).1.raw.vol.device := by
  induction calls generalizing s f with
  | nil => exact ⟨h, .refl hsane⟩
  | cons call calls ih =>
    obtain ⟨hnext, hgrows⟩ := h.step hbs hsane (hrange call List.mem_cons_self)
    obtain ⟨hlast, hrest⟩ :=
      ih (fun c hc => hrange c (List.mem_cons_of_mem call hc)) hgrows.sane hnext
    exact ⟨hlast, hgrows.trans hrest⟩

/-- In every run of calls on any files, with tape errors at any time and indexes
written in between, each file holds what its own successful calls have made of it. -/
theorem fcfs_refines (i : ι) :
    fileOf bs ((runSteps (step C bs) calls (s, f)).1.file i) =
      (runSteps (step C bs) calls (s, f)).2 i :=
  ((h.run hbs calls hrange hsane).1 i).2

/-- After every such run the dentries of before still stand for the contents of before,
so what an earlier index says of a file can still be read. -/
theorem fcfs_keeps_snapshot (i : ι) :
    fileOf bs ((runSteps (step C bs) calls (s, f)).1.raw, s.dentry i) = f i :=
  (h.grows (h.run hbs calls hrange hsane).2 i).2

end Run

/-- Calls on two files, with an index between the writes. -/
def sampleCalls : List (Call ℕ Unit ℕ) :=
  [.fcfsWrite 0 3 [1, 2], .writeIndex .ip .ea .full, .fcfsWrite 1 0 [7],
    .fcfsTruncate 0 4, .fcfsRead 1 0 9]

/-- An empty volume. -/
def blank : State ℕ Unit ℕ where
  raw := (emptyFile ℕ).1
  dentry _ := (emptyFile ℕ).2

def sampleRun : State ℕ Unit ℕ × (ℕ → ByteFile ℕ) :=
  runSteps (step emptyCatalog 4) sampleCalls (blank, fun _ => fileOf 4 (emptyFile ℕ))

theorem sampleCalls_inRange : ∀ call ∈ sampleCalls, call.InRange 4 := by
  simp [sampleCalls, Call.InRange]

theorem blank_shows : Shows 4 blank fun _ => fileOf 4 (emptyFile ℕ) :=
  fun _ => ⟨(emptyFile_valid 4).sound, rfl⟩

theorem fcfs_refines_sampleRun : fileOf 4 (sampleRun.1.file 0) = sampleRun.2 0 :=
  fcfs_refines (by decide) _ sampleCalls_inRange (blank_shows 0).1.sane blank_shows 0

theorem fcfs_keeps_snapshot_sampleRun :
    fileOf 4 (sampleRun.1.raw, blank.dentry 0) = fileOf 4 (emptyFile ℕ) :=
  fcfs_keeps_snapshot (by decide) _ sampleCalls_inRange (blank_shows 0).1.sane blank_shows 0

end AuroraLtfs.Fcfs
