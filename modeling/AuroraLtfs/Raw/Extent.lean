import AuroraLtfs.Lib.Segments
import AuroraLtfs.Tape.Medium

/-!
# Extent lists

A dentry maps file offsets to tape blocks by a list of extents.  A new extent
is laid over the list by a walk from its end: extents it covers are deleted,
extents it overlaps are trimmed or split, and it is appended to its predecessor
where the blocks are contiguous.
-/

namespace AuroraLtfs.Raw

open AuroraLtfs.Tape

/-- `struct extent_info`. -/
@[ext]
structure Extent where
  partition : Part
  block : ℕ
  byteoffset : ℕ
  bytecount : ℕ
  fileoffset : ℕ
  deriving DecidableEq, Repr

namespace Extent

def fileoffsetEnd (e : Extent) : ℕ := e.fileoffset + e.bytecount

/-- Truncate an extent from its beginning, so that it starts at `start`. -/
def trimBegin (bs start : ℕ) (e : Extent) : Extent :=
  let diff := start - e.fileoffset
  let byteoffset := diff + e.byteoffset
  { e with
    block := e.block + byteoffset / bs
    byteoffset := byteoffset % bs
    bytecount := e.bytecount - diff
    fileoffset := e.fileoffset + diff }

/-- Truncate an extent from its end, so that it ends at `stop`. -/
def trimEnd (stop : ℕ) (e : Extent) : Extent :=
  { e with bytecount := stop - e.fileoffset }

/-- `ext` continues `e` both in the file and on the tape. -/
def continuedBy (bs : ℕ) (e ext : Extent) : Bool :=
  ext.fileoffset = e.fileoffsetEnd ∧ e.partition = ext.partition ∧
    (e.byteoffset + e.bytecount) % bs = 0 ∧
    e.block + (e.byteoffset + e.bytecount) / bs = ext.block ∧
    ext.byteoffset = 0

end Extent

/-- What becomes of `entry` when `ext` is laid over it: the entry that is left,
what is put behind it, and by how much the real size shrinks. -/
def cutEntry (bs : ℕ) (ext entry : Extent) : Option Extent × List Extent × ℕ :=
  if ext.fileoffset ≤ entry.fileoffset ∧
      entry.fileoffset < ext.fileoffsetEnd then
    if entry.fileoffsetEnd ≤ ext.fileoffsetEnd then
      (none, [], entry.bytecount)
    else (some (entry.trimBegin bs ext.fileoffsetEnd), [],
      ext.fileoffsetEnd - entry.fileoffset)
  else if entry.fileoffset < ext.fileoffset ∧
      ext.fileoffset < entry.fileoffsetEnd then
    if entry.fileoffsetEnd ≤ ext.fileoffsetEnd then
      (some (entry.trimEnd ext.fileoffset), [],
        entry.fileoffsetEnd - ext.fileoffset)
    else (some (entry.trimEnd ext.fileoffset),
      [entry.trimBegin bs ext.fileoffsetEnd], ext.bytecount)
  else (some entry, [], 0)

/-- The reverse walk of `_ltfs_fsraw_add_extent_unlocked`.  `rev` holds the
entries still to visit, last first; `after` the ones already behind us. -/
def addWalk (bs : ℕ) (ext : Extent) :
    List Extent → List Extent → ℕ → List Extent × ℕ
  | [], after, realsize => (ext :: after, realsize + ext.bytecount)
  | entry :: prev, after, realsize =>
    match cutEntry bs ext entry with
    | (none, behind, less) => addWalk bs ext prev (behind ++ after)
        (realsize - less)
    | (some entry, behind, less) =>
      if entry.continuedBy bs ext then
        (prev.reverse ++ { entry with
            bytecount := entry.bytecount + ext.bytecount } :: behind ++ after,
          realsize - less + ext.bytecount)
      else if entry.fileoffsetEnd ≤ ext.fileoffset then
        (prev.reverse ++ entry :: ext :: behind ++ after,
          realsize - less + ext.bytecount)
      else addWalk bs ext prev (entry :: behind ++ after) (realsize - less)

/-- The part of a dentry that raw I/O works on. -/
structure Dentry where
  size : ℕ
  realsize : ℕ
  extents : List Extent
  deriving DecidableEq, Repr

/-- `_ltfs_fsraw_add_extent_unlocked`. -/
def addExtent (bs : ℕ) (ext : Extent) (d : Dentry) : Dentry :=
  let walked := addWalk bs ext d.extents.reverse [] d.realsize
  { size := if d.size < ext.fileoffsetEnd then ext.fileoffsetEnd else d.size
    realsize := walked.2
    extents := walked.1 }

/-- The reverse walk of `ltfs_fsraw_truncate`. -/
def truncateWalk (length : ℕ) : List Extent → ℕ → List Extent × ℕ
  | [], realsize => ([], realsize)
  | entry :: prev, realsize =>
    if length ≤ entry.fileoffset ∨ length = 0 then
      truncateWalk length prev (realsize - entry.bytecount)
    else if length < entry.fileoffsetEnd then
      let rest := truncateWalk length prev
        (realsize - (entry.fileoffsetEnd - length))
      (rest.1 ++ [entry.trimEnd length], rest.2)
    else ((entry :: prev).reverse, realsize)

/-- `ltfs_fsraw_truncate`. -/
def ltfsFsrawTruncate (length : ℕ) (d : Dentry) : Dentry :=
  let walked := if length < d.size then
      truncateWalk length d.extents.reverse d.realsize
    else (d.extents, d.realsize)
  { size := length, realsize := walked.2, extents := walked.1 }

end AuroraLtfs.Raw
