import AuroraLtfs.Fs.Dentry

/-!
# The incremental journal

Every change of the name tree is recorded under the path and the uid of the object
it is about, until the next index is written.  A directory that is created is listed
in `createdDirs`: its entry stands for all that is below it, and changes there are not
recorded.  What the allocator answers, and where an entry stands in its hash bucket,
are arguments of the calls.
-/

namespace AuroraLtfs.Incj

open Fs

/-- `enum journal_reason`, with what the entry holds for it: the dentry, or the name
of a deleted object. -/
inductive JournalReason
  | create (dentry : ℕ)
  | modify (dentry : ℕ)
  | deleteFile (name : Name)
  | deleteDirectory (name : Name)
  deriving DecidableEq, Repr

def JournalReason.isDelete : JournalReason → Bool
  | .deleteFile _ | .deleteDirectory _ => true
  | _ => false

/-- `struct jentry`. -/
structure JournalEntry where
  fullPath : Path
  uid : ℕ
  reason : JournalReason
  deriving DecidableEq, Repr

/-- The key of the hash table. -/
def JournalEntry.key (e : JournalEntry) : ℕ × Path := (e.uid, e.fullPath)

/-- The part of `struct ltfs_volume` the journal consists of.  The entries stand in
the order they were added in. -/
structure Journal where
  entries : List JournalEntry := []
  createdDirs : List Path := []
  journalErr : Bool := false
  deriving DecidableEq, Repr

/-- How a call fares: whether the key of a search, the parts of a new entry, the item
of `created_dirs` and the name of a deleted object can be allocated, and which of
several entries with one key comes first in its bucket. -/
structure Answers where
  key : Bool := true
  entry : Bool := true
  created : Bool := true
  name : Bool := true
  bucket : ℕ := 0
  deriving DecidableEq, Repr

/-- `_is_same_or_under`: the components of `dir` are the first ones of `path`. -/
def isSameOrUnder (path dir : Path) : Bool := dir.isPrefixOf path

theorem isSameOrUnder_iff {path dir : Path} :
    isSameOrUnder path dir = true ↔ dir <+: path :=
  List.isPrefixOf_iff_prefix

@[simp]
theorem isSameOrUnder_self (path : Path) : isSameOrUnder path path = true :=
  isSameOrUnder_iff.2 List.prefix_rfl

namespace Journal

def fail (j : Journal) : Journal := { j with journalErr := true }

/-- `HASH_ADD_KEYPTR`. -/
def add (e : JournalEntry) (j : Journal) : Journal :=
  { j with entries := j.entries ++ [e] }

/-- `HASH_FIND`. -/
def lookup (bucket : ℕ) (key : ℕ × Path) (j : Journal) : Option JournalEntry :=
  let chain := j.entries.filter fun e => e.key = key
  chain[bucket % chain.length]?

/-- `_find_jentry`: without memory for the key the journal is given up, but the
caller goes on as if there were no entry. -/
def findJentry (answers : Answers) (path : Path) (uid : ℕ) (j : Journal) :
    Option JournalEntry × Journal :=
  if answers.key then (j.lookup answers.bucket (uid, path), j) else (none, j.fail)

/-- One of the directories created in the session is `path` or above it. -/
def covered (path : Path) (j : Journal) : Bool :=
  j.createdDirs.any (isSameOrUnder path)

/-- Add an entry, or give the journal up. -/
def record (answers : Answers) (e : JournalEntry) (j : Journal) : Journal :=
  if answers.entry then j.add e else j.fail

end Journal

/-- `_set_deleted_name`: the name is taken from the path. -/
def deletedName (path : Path) : Name := path.getLastD []

/-- `incj_create`, for the dentry `d` that is `x`. -/
def incjCreate (answers : Answers) (ppath : Path) (d : ℕ) (x : Dentry) (j : Journal) :
    Journal :=
  if j.journalErr || j.covered ppath then j
  else
    let path := ppath ++ [x.name]
    let j := j.record answers ⟨path, x.uid, .create d⟩
    -- The missing item of `created_dirs` does not set `journal_err`.
    if answers.entry && x.isdir && answers.created then
      { j with createdDirs := j.createdDirs ++ [path] }
    else j

/-- `incj_modify`. -/
def incjModify (answers : Answers) (path : Path) (d : ℕ) (x : Dentry) (j : Journal) :
    Journal :=
  if j.journalErr then j
  else
    match j.findJentry answers path x.uid with
    | (some _, j) => j
    | (none, j) =>
      if j.covered path then j else j.record answers ⟨path, x.uid, .modify d⟩

/-- The end of `incj_rmfile`, where no entry was there to be changed. -/
def recordRmfile (answers : Answers) (path : Path) (uid : ℕ) (j : Journal) : Journal :=
  if j.covered path then j
  else j.record answers ⟨path, uid, .deleteFile (deletedName path)⟩

/-- `incj_rmfile`: the entry of a file that was created in the session goes, that of a
file that was modified becomes a deletion. -/
def incjRmfile (answers : Answers) (path : Path) (x : Dentry) (j : Journal) : Journal :=
  if j.journalErr then j
  else
    match j.findJentry answers path x.uid with
    | (some e, j) =>
      match e.reason with
      | .create _ => { j with entries := j.entries.erase e }
      | .modify _ =>
        if answers.name then
          let deleted := { e with reason := .deleteFile (deletedName path) }
          { j with entries := j.entries.replace e deleted }
        else j.fail
      | _ => recordRmfile answers path x.uid j
    | (none, j) => recordRmfile answers path x.uid j

/-- The loop of `incj_rmdir` over `created_dirs`: the list it leaves, whether `path`
was on it, and whether `path` is below a directory of it, where the call ends. -/
def sweepCreated (path : Path) : List Path → List Path × Bool × Bool
  | [] => ([], false, false)
  | cp :: rest =>
    if isSameOrUnder cp path then
      let (kept, created, below) := sweepCreated path rest
      (kept, path = cp || created, below)
    else if isSameOrUnder path cp then (cp :: rest, false, true)
    else
      let (kept, created, below) := sweepCreated path rest
      (cp :: kept, created, below)

/-- The entries `incj_rmdir` keeps: those that are not about `path` or something below
it, and the deletion of another object that had the name before. -/
def survives (path : Path) (uid : ℕ) (e : JournalEntry) : Bool :=
  !isSameOrUnder e.fullPath path ||
    (e.uid ≠ uid && e.fullPath = path && e.reason.isDelete)

/-- `incj_rmdir`. -/
def incjRmdir (answers : Answers) (path : Path) (x : Dentry) (j : Journal) : Journal :=
  if j.journalErr then j
  else
    let (kept, created, below) := sweepCreated path j.createdDirs
    let j := { j with createdDirs := kept }
    if below then j
    else
      let j := { j with entries := j.entries.filter (survives path x.uid) }
      if created then j
      else j.record answers ⟨path, x.uid, .deleteDirectory (deletedName path)⟩

/-- `incj_clear`. -/
def incjClear (_ : Journal) : Journal := {}

/-- `incj_dump`: the debugging attribute that prints the journal empties it on the way,
but does not take a journal that was given up for a complete one. -/
def incjDump (j : Journal) : Journal := { journalErr := j.journalErr }

end AuroraLtfs.Incj
