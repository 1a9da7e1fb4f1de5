import AuroraLtfs.Raw.Contents
import AuroraLtfs.Raw.ReadLoop

/-!
# Raw file access refines a byte file

Every sequence of raw writes, truncations and reads of one file, on a volume
without tape errors, returns what the byte file returns that the dentry stands
for, and keeps standing for it.
-/

namespace AuroraLtfs.Raw

open AuroraLtfs.Tape
open AuroraLtfs.Index

variable {σ β : Type*}

/-- The state raw access works on: the volume and the dentry of the file. -/
abbrev FileState (σ β : Type*) := RawVol σ β × Dentry

/-- The volume serves reads of its own medium. -/
def Ready (raw : RawVol σ β) : Prop :=
  Serves raw.vol.device.medium raw.vol.device.appendEnd raw

theorem Ready.grows {raw : RawVol σ β} (h : Ready raw) {v : Vol σ β}
    (hv : v.Reliable) (hgrows : raw.vol.device.Grows v.device) :
    Ready { raw with vol := v } := by
  refine ⟨hv, hgrows.sane, rfl, rfl, ?_⟩
  intro p b hlast
  obtain ⟨hlimit, hblock⟩ := h.lastBlock p b hlast
  exact ⟨hlimit.trans_le (hgrows.appendEnd_le p), (hgrows.kept p b hlimit).trans hblock⟩

variable [Zero β]

/-- The dentry keeps the extent invariant on a volume that may fail. -/
structure SoundFile (bs : ℕ) (s : FileState σ β) : Prop where
  sane : s.1.vol.device.Sane
  dentry : s.2.Valid bs s.1.vol.device.medium s.1.vol.device.appendEnd

/-- The volume is ready and the dentry keeps the extent invariant. -/
structure ValidFile (bs : ℕ) (s : FileState σ β) : Prop where
  ready : Ready s.1
  dentry : s.2.Valid bs s.1.vol.device.medium s.1.vol.device.appendEnd

theorem ValidFile.sound {bs : ℕ} {s : FileState σ β} (h : ValidFile bs s) :
    SoundFile bs s := ⟨h.ready.sane, h.dentry⟩

/-- The byte file that a dentry stands for on its volume. -/
def fileOf (bs : ℕ) (s : FileState σ β) : ByteFile β :=
  contents bs s.1.vol.device.medium s.2

/-- The same with its holes. -/
def cellsOf (bs : ℕ) (s : FileState σ β) : SparseFile β :=
  cells bs s.1.vol.device.medium s.2

theorem fileOf_eq (bs : ℕ) (s : FileState σ β) : fileOf bs s = (cellsOf bs s).fill :=
  contents_eq _ _ _

section Steps

variable {bs : ℕ} {s : FileState σ β} (C : Catalog σ (List β))

/-- Whatever happens on the tape, the dentry keeps its extents. -/
theorem SoundFile.grows (hs : SoundFile bs s) {v : Vol σ β}
    (hgrows : s.1.vol.device.Grows v.device) :
    SoundFile bs ({ s.1 with vol := v }, s.2) ∧
      cellsOf bs ({ s.1 with vol := v }, s.2) = cellsOf bs s := by
  obtain ⟨hvalid, hsame⟩ := hs.dentry.grows hgrows
  exact ⟨⟨hgrows.sane, hvalid⟩, hsame⟩

/-- A raw write that fails leaves the file as it was. -/
theorem ltfsFsrawWrite_sound (hbs : 0 < bs) (hs : SoundFile bs s) (p : Part)
    {offset : ℕ} {bytes : List β} (hnonempty : bytes ≠ [])
    (hfits : offset + bytes.length + bs ≤ 2 ^ 64) :
    SoundFile bs (ltfsFsrawWrite C bs p offset bytes s).2 ∧
      s.1.vol.device.Grows
        (ltfsFsrawWrite C bs p offset bytes s).2.1.vol.device ∧
      cellsOf bs (ltfsFsrawWrite C bs p offset bytes s).2 =
        match (ltfsFsrawWrite C bs p offset bytes s).1 with
        | .ok _ => (cellsOf bs s).put offset bytes
        | .error _ => cellsOf bs s := by
  have hreports := ltfsFsrawWriteData_spec C (p := p) hbs bytes hs.sane
  rw [ltfsFsrawWrite]
  cases hwrite : ltfsFsrawWriteData C bs p bytes 1 s.1.vol with
  | mk x v =>
    rw [hwrite] at hreports
    obtain ⟨hgrows, hstart⟩ := hreports
    obtain ⟨hsound, hsame⟩ := hs.grows hgrows
    cases x with
    | error e => exact ⟨hsound, hgrows, hsame⟩
    | ok x =>
      obtain ⟨start, rfl, hholds⟩ := hstart x rfl hnonempty
      obtain ⟨hvalid, hcontents⟩ := addExtent_spec hbs hsound.dentry
        (hholds.good hbs hnonempty hfits) rfl
        (fun j hj => hholds.get hbs hj)
      exact ⟨⟨hgrows.sane, hvalid⟩, hgrows,
        hcontents.trans (congrArg (ByteFile.put · offset bytes) hsame)⟩

theorem ltfsFsrawWrite_spec (hbs : 0 < bs) (hs : ValidFile bs s) (p : Part)
    {offset : ℕ} {bytes : List β} (hnonempty : bytes ≠ [])
    (hfits : offset + bytes.length + bs ≤ 2 ^ 64) :
    ∃ next, ltfsFsrawWrite C bs p offset bytes s = (.ok (), next) ∧
      ValidFile bs next ∧ fileOf bs next = (fileOf bs s).write offset bytes := by
  obtain ⟨x, v, hwrite, hv⟩ := ltfsFsrawWriteData_succeeds C (p := p) bs bytes
    hs.ready.reliable hs.ready.sane
  obtain ⟨hsound, hgrows, hcells⟩ := ltfsFsrawWrite_sound C hbs hs.sound p hnonempty hfits
  have hok : ltfsFsrawWrite C bs p offset bytes s =
      (.ok (), ({ s.1 with vol := v }, addExtent bs
        (writtenExtent p (x.getD 0) offset bytes) s.2)) := by
    simp [ltfsFsrawWrite, hwrite]
  rw [hok] at hsound hgrows hcells
  refine ⟨_, hok, ⟨hs.ready.grows hv hgrows, hsound.dentry⟩, ?_⟩
  rw [fileOf_eq, fileOf_eq, hcells, ByteFile.fill_put]

/-- The buffer with the sparse end of the file is what the byte file reads. -/
theorem readTail_eq_read {f : ByteFile β} {offset count : ℕ}
    {c : Cursor σ β} (hfilled : Filled f.byte offset c)
    (hin : c.nextOff ≤ min (offset + count) (max offset f.size))
    (hsparse : c.nextOff < offset + count →
      ∀ i, c.nextOff ≤ i → f.byte i = 0) :
    readTail count (offset + count) f.size c = f.read offset count := by
  have hnextOff := hfilled.nextOff
  rw [readTail]
  by_cases hmore : c.out.length < count ∧ c.nextOff < f.size
  · rw [if_pos hmore]
    have hlast : (if offset + count < f.size then offset + count
        else f.size) = min (offset + count) f.size := by
      split_ifs <;> omega
    have hfull := hfilled.fill (min (offset + count) f.size - c.nextOff)
      fun i hi _ => hsparse (by omega) i hi
    rw [hlast]
    apply ByteFile.eq_read
    · simp only [Cursor.fill, List.length_append, List.length_replicate]
      omega
    · exact hfull.bytes
  · rw [if_neg hmore]
    apply ByteFile.eq_read
    · omega
    · exact hfilled.bytes

omit [Zero β] in
theorem Serves.ready {m : Medium (List β)} {limit : Part → ℕ}
    {raw : RawVol σ β} (h : Serves m limit raw) : Ready raw := by
  rw [Ready, h.medium, h.appendEnd]
  exact h

theorem ltfsFsrawRead_spec (hbs : 0 < bs) (hs : ValidFile bs s)
    {offset count : ℕ} (hrange : offset + count < 2 ^ 64) :
    ∃ next, ltfsFsrawRead bs offset count s =
        (.ok ((fileOf bs s).read offset count), next) ∧
      ValidFile bs next ∧ cellsOf bs next = cellsOf bs s ∧ next.2 = s.2 := by
  by_cases hcount : count = 0
  · refine ⟨s, ?_, hs, rfl, rfl⟩
    have hempty : (fileOf bs s).read offset count = [] := by
      apply List.eq_nil_of_length_eq_zero
      rw [ByteFile.length_read]
      omega
    rw [ltfsFsrawRead, if_pos hcount, hempty]
  have hlast : u64 (offset + count) = offset + count := by
    have hcast := u64_of_bounds (n := (offset : ℤ) + count) (by omega) (by omega)
    omega
  obtain ⟨start, hstart⟩ : ∃ start : Cursor σ β, start =
    { raw := s.1
      curpos := s.1.vol.device.position
      seekpos := s.1.vol.device.position
      firstbyte := 0
      lastbyte := 0
      nextOff := offset
      out := [] } := ⟨_, rfl⟩
  obtain ⟨c, hwalk, hserves, hfilled, hin, hsparse⟩ :=
    readExtents_spec (c := start) hbs (fileOf bs s).byte offset count s.2.size
      s.2.extents hs.dentry.ordered hs.dentry.good hs.dentry.ends
      (fun e he i hlo hhi => by
        rw [fileOf_eq, ByteFile.fill_byte, cellsOf, cells_byte hs.dentry,
          Segments.lookup_of_mem _ hs.dentry.ordered he hlo hhi]
        rfl)
      (by rw [hstart]; exact hs.ready)
      (by rw [hstart]; exact ⟨rfl, fun k hk => by simp at hk⟩)
      (by rw [hstart]; simp)
      (fun i _ hnone => by
        rw [fileOf_eq, ByteFile.fill_byte, cellsOf, cells_byte hs.dentry,
          Segments.lookup_eq_none _ hnone]
        rfl)
  refine ⟨(c.raw, s.2), ?_, ⟨hserves.ready, ?_⟩, ?_, rfl⟩
  · rw [ltfsFsrawRead, if_neg hcount]
    simp only [hlast, ← hstart, hwalk]
    rw [← readTail_eq_read hfilled hin hsparse]
    rfl
  · rw [hserves.medium, hserves.appendEnd]
    exact hs.dentry
  · rw [cellsOf, hserves.medium]
    rfl

end Steps

/-! ## Sequences of requests -/

/-- What is asked of raw access to a file. -/
inductive Request (β : Type*)
  | write (p : Part) (offset : ℕ) (bytes : List β)
  | truncate (length : ℕ)
  | read (offset count : ℕ)

namespace Request

/-- The request is carried out on the volume; only a read returns bytes. -/
def exec (C : Catalog σ (List β)) (bs : ℕ) (r : Request β)
    (s : FileState σ β) : TapeCall (FileState σ β) (List β) :=
  match r with
  | .write p offset bytes => (ltfsFsrawWrite C bs p offset bytes s).andThen
      fun _ s => (.ok [], s)
  | .truncate length => (.ok [], s.1, ltfsFsrawTruncate length s.2)
  | .read offset count => ltfsFsrawRead bs offset count s

/-- What the request means for a byte file. -/
def apply (r : Request β) (f : ByteFile β) : List β × ByteFile β :=
  match r with
  | .write _ offset bytes => ([], f.write offset bytes)
  | .truncate length => ([], f.truncate length)
  | .read offset count => (f.read offset count, f)

/-- The end of the request is a 64-bit number, and a write has something to
write. -/
def InRange : Request β → Prop
  | .write _ offset bytes => bytes ≠ [] ∧ offset + bytes.length < 2 ^ 64
  | .truncate _ => True
  | .read offset count => offset + count < 2 ^ 64

/-- A write ends at least a block short of the 64-bit range as well. -/
def BlockInRange (bs : ℕ) : Request β → Prop
  | .write _ offset bytes => offset + bytes.length + bs ≤ 2 ^ 64
  | _ => True

end Request

/-- Carry out the requests in turn; each gives what it read and the file size
behind it. -/
def runRequests (C : Catalog σ (List β)) (bs : ℕ) :
    List (Request β) → FileState σ β →
      TapeCall (FileState σ β) (List (List β × ℕ))
  | [], s => (.ok [], s)
  | r :: rs, s => (r.exec C bs s).andThen fun out s =>
    (runRequests C bs rs s).andThen fun outs next =>
      (.ok ((out, s.2.size) :: outs), next)

/-- The same for a byte file. -/
def runOnFile : List (Request β) → ByteFile β → List (List β × ℕ) × ByteFile β
  | [], f => ([], f)
  | r :: rs, f =>
    let (out, g) := r.apply f
    let (outs, last) := runOnFile rs g
    ((out, g.size) :: outs, last)

section Runs

variable {bs : ℕ} (C : Catalog σ (List β))

/-- One request does to the file what it means. -/
theorem exec_refines (hbs : 0 < bs) {s : FileState σ β} (hs : ValidFile bs s)
    {r : Request β} (hrange : r.InRange) (hblock : r.BlockInRange bs) :
    ∃ next, r.exec C bs s = (.ok (r.apply (fileOf bs s)).1, next) ∧
      ValidFile bs next ∧ fileOf bs next = (r.apply (fileOf bs s)).2 := by
  cases r with
  | write p offset bytes =>
    obtain ⟨next, hwrite, hnext⟩ := ltfsFsrawWrite_spec C hbs hs p hrange.1 hblock
    refine ⟨next, ?_, hnext⟩
    rw [Request.exec, hwrite]
    rfl
  | truncate length =>
    obtain ⟨hvalid, hcells⟩ := ltfsFsrawTruncate_spec hs.dentry length
    refine ⟨_, rfl, ⟨hs.ready, hvalid⟩, ?_⟩
    rw [fileOf_eq, fileOf_eq, cellsOf, hcells, ByteFile.fill_truncate]
    rfl
  | read offset count =>
    obtain ⟨next, hread, hvalid, hsame, -⟩ := ltfsFsrawRead_spec hbs hs hrange
    exact ⟨next, hread, hvalid, by rw [fileOf_eq, hsame, ← fileOf_eq]; rfl⟩

/-- Every sequence of requests reads what the byte file reads and has its
size after each request. -/
theorem runRequests_refines (hbs : 0 < bs) (requests : List (Request β))
    (hrange : ∀ r ∈ requests, r.InRange ∧ r.BlockInRange bs)
    (s : FileState σ β) (hs : ValidFile bs s) :
    ∃ next, runRequests C bs requests s =
        (.ok (runOnFile requests (fileOf bs s)).1, next) ∧
      ValidFile bs next ∧
      fileOf bs next = (runOnFile requests (fileOf bs s)).2 := by
  induction requests generalizing s with
  | nil => exact ⟨s, rfl, hs, rfl⟩
  | cons r rs ih =>
    obtain ⟨hin, hblock⟩ := hrange r (by simp)
    obtain ⟨mid, hexec, hmid, hfile⟩ := exec_refines C hbs hs hin hblock
    obtain ⟨next, hrun, hnext, hlast⟩ := ih (fun x hx => hrange x (by simp [hx])) mid hmid
    refine ⟨next, ?_, hnext, ?_⟩
    · have hsize : mid.2.size = (r.apply (fileOf bs s)).2.size := by
        rw [← hfile]
        rfl
      simp only [runRequests, hexec, hrun, Outcome.andThen_ok, runOnFile, hfile, hsize]
    · rw [hlast, hfile]
      rfl

end Runs

/-- A catalog of empty documents. -/
def emptyCatalog : Catalog Unit (List β) where
  journalErr _ := false
  journalCount _ := 0
  incjClear t := t
  schema _ _ := []
  afterSchema _ t := t
  incSchema _ _ := []
  afterIncSchema _ t := t

/-- An empty file on a volume without any data. -/
def emptyFile (β : Type*) : FileState Unit β :=
  ({ vol := mounted () fun _ => [], lastPos := none, lastBlock := [] },
    { size := 0, realsize := 0, extents := [] })

theorem emptyFile_valid (bs : ℕ) : ValidFile bs (emptyFile β) := by
  constructor
  · exact ⟨mounted_reliable _ _, mounted_sane _ _, rfl, rfl,
      fun p b h => by simp [emptyFile] at h⟩
  · exact ⟨List.Pairwise.nil, by simp [emptyFile], by simp [emptyFile]⟩

/-- A hole, an overwritten byte and a cut and extended end on blocks of four
bytes. -/
theorem runRequests_refines_sparse :
    ∃ next, runRequests emptyCatalog 4
      [.write .dp 3 [1, 2, 3, 4, 5, 6], .write .ip 5 [9], .truncate 7,
        .truncate 10, .read 1 20] (emptyFile ℕ) =
      (.ok [([], 9), ([], 9), ([], 7), ([], 10),
        ([0, 0, 1, 2, 9, 4, 0, 0, 0], 10)], next) := by
  obtain ⟨next, hrun, -⟩ := runRequests_refines emptyCatalog
    (by decide : 0 < 4)
    [.write .dp 3 [1, 2, 3, 4, 5, 6], .write .ip 5 [9], .truncate 7,
        .truncate 10, .read 1 20]
    (by simp [Request.InRange, Request.BlockInRange]) (emptyFile ℕ)
    (emptyFile_valid 4)
  exact ⟨next, hrun⟩

/-- A write that ends in the last block below `2 ^ 64` cannot be read back. -/
theorem runRequests_wraps_in_last_block :
    ¬∀ (bs : ℕ) (requests : List (Request ℕ)) (s : FileState Unit ℕ), 0 < bs →
      ValidFile bs s → (∀ r ∈ requests, r.InRange) →
      ∃ next, runRequests emptyCatalog bs requests s =
        (.ok (runOnFile requests (fileOf bs s)).1, next) := by
  intro h
  obtain ⟨next, hrun⟩ := h 16
    [.write .dp (2 ^ 64 - 10) [1, 2, 3, 4, 5], .read (2 ^ 64 - 10) 5]
    (emptyFile ℕ) (by decide) (emptyFile_valid 16)
    (by simp [Request.InRange])
  have herror : (runRequests emptyCatalog 16
      [.write .dp (2 ^ 64 - 10) [1, 2, 3, 4, 5], .read (2 ^ 64 - 10) 5]
      (emptyFile ℕ)).1 = .error .smallBlock := by
    rfl
  rw [hrun] at herror
  simp at herror

end AuroraLtfs.Raw
