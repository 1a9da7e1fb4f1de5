import AuroraLtfs.Index.Writer
import AuroraLtfs.Raw.Extent

/-!
# Raw file access

Writing and reading the bytes of one file directly on the tape, as
`ltfs_fsops_raw.c` does: a write puts blocks at the append position of a
partition and records them as an extent, a read walks the extents block by
block and keeps the last block it has read.
-/

namespace AuroraLtfs.Raw

open AuroraLtfs.Tape
open AuroraLtfs.Index

variable {σ β : Type*}

/-- The tape blocks of a volume hold bytes. -/
abbrev Vol (σ β : Type*) := Volume σ (List β)

/-! ## Writing -/

/-- The loop that writes a buffer in blocks of `bs` bytes.  Every round writes
at least one byte, so the length of the buffer bounds the number of rounds. -/
def writeBlocks (bs : ℕ) : ℕ → List β → Vol σ β → TapeCall (Vol σ β) Unit
  | 0, _, v => (.ok (), v)
  | fuel + 1, bytes, v =>
    if bytes = [] then (.ok (), v)
    else (v.onDevice (tapeWrite (bytes.take bs) false false)).andThen
      fun _ v => writeBlocks bs fuel (bytes.drop bs) v

def writeRepeated (bs : ℕ) (bytes : List β) :
    ℕ → Vol σ β → TapeCall (Vol σ β) Unit
  | 0, v => (.ok (), v)
  | n + 1, v => (writeBlocks bs bytes.length bytes v).andThen
      fun _ v => writeRepeated bs bytes n v

def otherPart : Part → Part
  | .ip => .dp
  | .dp => .ip

/-- Partition `p` is about to be written and does not end in an index any
more. -/
def leaveIndex (p : Part) (v : Vol σ β) : Vol σ β :=
  match p with
  | .ip => { v with ipIndexFileEnd := false }
  | .dp => { v with dpIndexFileEnd := false }

variable (C : Catalog σ (List β))

/-- `_ltfs_fsraw_write_data_unlocked`: the number of the first block written,
if any. -/
def ltfsFsrawWriteData (bs : ℕ) (p : Part) (bytes : List β)
    (repetitions : ℕ) (v : Vol σ β) : TapeCall (Vol σ β) (Option ℕ) :=
  if bytes = [] ∨ repetitions = 0 then (.ok none, v)
  else if 1 < repetitions ∧ bytes.length % bs ≠ 0 then (.error .badArg, v)
  else match tapeReadOnly p v.device with
    | .error e => (.error e, v)
    | .ok () =>
      -- the other partition has to end in an index before data goes here
      (ltfsWriteIndexConditional C (otherPart p) v).andThen fun _ v =>
        ((leaveIndex p v).onDevice
          (tapeSeekAppendPosition p (p = .ip))).andThen fun _ v =>
            match tapeGetPosition v.device with
            | .error e => (.error e, v)
            | .ok start => (writeRepeated bs bytes repetitions v).andThen
                fun _ v => (.ok (some start.block), v)

/-- The volume with the last-block cache of `ltfs_fsraw_read`. -/
structure RawVol (σ β : Type*) where
  vol : Vol σ β
  lastPos : Option (Part × ℕ)
  lastBlock : List β

/-- The extent of a buffer that was written from block `start` on. -/
def writtenExtent (p : Part) (start offset : ℕ) (bytes : List β) : Extent where
  partition := p
  block := start
  byteoffset := 0
  bytecount := bytes.length
  fileoffset := offset

/-- `ltfs_fsraw_write`. -/
def ltfsFsrawWrite (bs : ℕ) (p : Part) (offset : ℕ) (bytes : List β)
    (s : RawVol σ β × Dentry) : TapeCall (RawVol σ β × Dentry) Unit :=
  match ltfsFsrawWriteData C bs p bytes 1 s.1.vol with
  | (.error e, v) => (.error e, ({ s.1 with vol := v }, s.2))
  | (.ok start, v) => (.ok (), ({ s.1 with vol := v },
      addExtent bs (writtenExtent p (start.getD 0) offset bytes) s.2))

/-! ## Reading -/

/-- The local variables of the read loop.  `out` is the buffer filled so far,
and its length is `read_count`. -/
structure Cursor (σ β : Type*) where
  raw : RawVol σ β
  curpos : Position
  seekpos : Position
  firstbyte : ℕ
  lastbyte : ℕ
  nextOff : ℕ
  out : List β

/-- Arithmetic on the `uint64_t` variables of the loop. -/
def u64 (n : ℤ) : ℕ := (n % 2 ^ 64).toNat

/-- The block at `seekpos` is the one the cache holds, and the device stands
right behind it. -/
def cached (e : Extent) (c : Cursor σ β) : Bool :=
  c.raw.lastPos = some (e.partition, c.seekpos.block) ∧
    c.seekpos.partition = c.curpos.partition ∧
    c.seekpos.block + 1 = c.curpos.block

namespace Cursor

/-- Run a call of the tape layer on the device the cursor reads from. -/
def onDevice {α : Type*} (c : Cursor σ β)
    (call : Device (List β) → TapeCall (Device (List β)) α) : TapeCall (Cursor σ β) α :=
  (c.raw.vol.onDevice call).within fun v =>
    { c with raw := { c.raw with vol := v } }

/-- The block just read lies over what the buffer held before. -/
def overwrite (c : Cursor σ β) (data : List β) : Cursor σ β :=
  { c with raw := { c.raw with
    lastBlock := data ++ c.raw.lastBlock.drop data.length } }

/-- The block just read is the cached one, and the device is behind it. -/
def remember (c : Cursor σ β) (e : Extent) (data : List β) : Cursor σ β :=
  { c with
    raw := { c.raw with
      lastPos := some (e.partition, c.seekpos.block)
      lastBlock := data }
    curpos := ⟨c.curpos.partition, c.curpos.block + 1⟩ }

/-- Copy `ncopy` bytes out of the current block and go on to the next. -/
def advance (c : Cursor σ β) (bs ncopy : ℕ) : Cursor σ β :=
  { c with
    out := c.out ++
      (c.raw.lastBlock.drop (u64 (c.nextOff - c.firstbyte))).take ncopy
    firstbyte := u64 (c.firstbyte + bs)
    nextOff := c.nextOff + ncopy
    seekpos := ⟨c.seekpos.partition, c.seekpos.block + 1⟩ }

end Cursor

/-- Read the block the device stands at, of at least `blockbytes` bytes. -/
def readBlock (bs blockbytes : ℕ) (e : Extent) (c : Cursor σ β) :
    TapeCall (Cursor σ β) Unit :=
  (c.onDevice tapeRead).andThen fun read c =>
    let data := read.getD []
    -- the buffer is overwritten before its length is checked
    if bs < data.length then (.error .largeBlocksize, c.overwrite data)
    else if data.length < blockbytes then (.error .smallBlock, c.overwrite data)
    else (.ok (), c.remember e data)

/-- The cached block is used as it is, if it is long enough. -/
def fetchBlock (bs blockbytes : ℕ) (e : Extent) (c : Cursor σ β) :
    TapeCall (Cursor σ β) Unit :=
  if cached e c then
    if c.raw.lastBlock.length < blockbytes then (.error .smallBlock, c)
    else (.ok (), c)
  else readBlock bs blockbytes e c

/-- The loop that reads the blocks of one extent until its end or until the
buffer is full.  Every round copies at least one byte, so `count` bounds the
number of rounds. -/
def readBlocks (bs count lastOff : ℕ) (e : Extent) :
    ℕ → Cursor σ β → TapeCall (Cursor σ β) Unit
  | 0, c => (.ok (), c)
  | fuel + 1, c =>
    if c.nextOff < e.fileoffsetEnd ∧ c.out.length < count then
      let lastbyte := u64 (c.lastbyte + bs)
      let lastbyte :=
        if e.fileoffsetEnd < lastbyte then e.fileoffsetEnd else lastbyte
      let blockbytes := u64 (lastbyte - c.firstbyte)
      (fetchBlock bs blockbytes e { c with lastbyte := lastbyte }).andThen
        fun _ c => readBlocks bs count lastOff e fuel
          (c.advance bs ((if lastOff < lastbyte then lastOff else lastbyte) -
            c.nextOff))
    else (.ok (), c)

/-- The first block to read. -/
def seekTarget (bs : ℕ) (e : Extent) (nextOff : ℕ) : Position :=
  ⟨e.partition, e.block + (nextOff - e.fileoffset + e.byteoffset) / bs⟩

/-- The device is neither at that block nor right behind it with the block
itself in the cache. -/
def needsSeek (e : Extent) (seekpos : Position) (raw : RawVol σ β) : Bool :=
  raw.vol.device.position ≠ seekpos ∧
    ¬(raw.vol.device.position.partition = seekpos.partition ∧
      raw.vol.device.position.block = seekpos.block + 1 ∧
      raw.lastPos = some (e.partition, seekpos.block))

/-- The loop variables before the first block of an extent. -/
def enterExtent (bs : ℕ) (e : Extent) (c : Cursor σ β) : Cursor σ β :=
  let seekpos := seekTarget bs e c.nextOff
  let firstbyte := u64 (e.fileoffset - e.byteoffset +
    (seekpos.block - e.block : ℤ) * bs)
  { c with
    curpos := c.raw.vol.device.position
    seekpos := seekpos
    firstbyte := firstbyte
    lastbyte := firstbyte }

/-- The needed data of one extent.  `curpos` keeps the position before the
seek. -/
def readExtent (bs count lastOff : ℕ) (e : Extent) (c : Cursor σ β) :
    TapeCall (Cursor σ β) Unit :=
  let c := enterExtent bs e c
  (if needsSeek e c.seekpos c.raw then
      c.onDevice (tapeSeek c.seekpos.partition (.block c.seekpos.block))
    else (.ok (), c)).andThen fun _ c =>
      readBlocks bs count lastOff e count c

variable [Zero β]

/-- Fill `n` bytes of a hole of the file with zeros. -/
def Cursor.fill (c : Cursor σ β) (n : ℕ) : Cursor σ β :=
  { c with out := c.out ++ List.replicate n 0, nextOff := c.nextOff + n }

/-- The walk over the extents, with zeros for the holes between them. -/
def readExtents (bs count lastOff : ℕ) :
    List Extent → Cursor σ β → TapeCall (Cursor σ β) Unit
  | [], c => (.ok (), c)
  | e :: es, c =>
    if c.out.length = count then (.ok (), c)
    else if c.nextOff < e.fileoffset ∧ lastOff < e.fileoffset then
      (.ok (), c.fill (lastOff - c.nextOff))
    else
      let c := c.fill (e.fileoffset - c.nextOff)
      if c.nextOff < e.fileoffsetEnd then
        (readExtent bs count lastOff e c).andThen fun _ c =>
          readExtents bs count lastOff es c
      else readExtents bs count lastOff es c

/-- The sparse end of the file. -/
def readTail (count lastOff size : ℕ) (c : Cursor σ β) : List β :=
  if c.out.length < count ∧ c.nextOff < size then
    (c.fill ((if lastOff < size then lastOff else size) - c.nextOff)).out
  else c.out

/-- `ltfs_fsraw_read`. -/
def ltfsFsrawRead (bs offset count : ℕ) (s : RawVol σ β × Dentry) :
    TapeCall (RawVol σ β × Dentry) (List β) :=
  if count = 0 then (.ok [], s)
  else
    let start : Cursor σ β :=
      { raw := s.1
        curpos := s.1.vol.device.position
        seekpos := s.1.vol.device.position
        firstbyte := 0
        lastbyte := 0
        nextOff := offset
        out := [] }
    let lastOff := u64 (offset + count)
    match readExtents bs count lastOff s.2.extents start with
    | (.error e, c) => (.error e, c.raw, s.2)
    | (.ok (), c) => (.ok (readTail count lastOff s.2.size c), c.raw, s.2)

end AuroraLtfs.Raw
