import AuroraLtfs.Incj.Entries
import AuroraLtfs.Lib.TextWriter

/-!
# The incremental index document

The journal is written as a tree of directory elements.  The writer keeps the
directories that are open below the root; from one entry to the next it closes those
that the two parents do not share and opens the missing ones.  An entry that cannot be
written ends the output of entries, but neither the loop nor the document: the loop
goes on to dispose of the rest, and the elements of the root are closed.

What an element says about its object is a fragment of the document.  The directories
an entry lies in are looked up in the tree.  If one is not there the path helper holds
a null pointer, or is freed twice: such a call has no outcome here.
-/

namespace AuroraLtfs.Incj

open Fs

/-- The elements of the document. -/
inductive IncTag
  | index
  | directory (d : ℕ)
  | contents
  | entry (e : JournalEntry)
  | part (name : String)
  deriving DecidableEq, Repr

inductive IncItem
  | text (text : String)
  | preserved (i : ℕ)
  deriving DecidableEq, Repr

/-- A call of the writer fails because of its output, which keeps the error, or
within. -/
inductive Fault
  | output
  | internal
  deriving DecidableEq, Repr

abbrev IncCall := WriterCall IncTag IncItem

abbrev IncEvent := DocEvent IncTag IncItem

abbrev IncWriter := TextWriter IncTag IncItem Fault

abbrev Piece := Fragment String String

/-- A fragment within the document. -/
def Piece.script (piece : Piece) : List IncCall := piece.embed .part .text

/-- What the document is made of besides the journal.  What is written about a
directory depends on its dirty mark, and so on the time it is opened at, which is
given by the number of calls made. -/
structure Increment where
  tree : LtfsIndex
  properties : Piece
  about : ℕ → ℕ → Piece
  body : ℕ → JournalEntry → Piece
  /-- `tag_count` -/
  tagCount : ℕ

/-- `incj_create_path_helper`: the dentries of the directories of a path. -/
def incjCreatePathHelper (s : LtfsIndex) : ℕ → Path → Option (List ℕ)
  | _, [] => some []
  | parent, name :: rest =>
    if ltfsFilenameMax < pathnameStrlen name then none
    else
      match (s.dentry parent).findKey name with
      | none => none
      | some d => (incjCreatePathHelper s d rest).map (d :: ·)

/-- `incj_compare_path`: the number of directories two paths have in common. -/
def incjComparePath : List ℕ → List ℕ → ℕ
  | x :: now, y :: next => if x = y then incjComparePath now next + 1 else 0
  | _, _ => 0

/-- The calls `_xml_close_incremental_dirs` makes, two for every directory. -/
def closeDirs (pops : ℕ) : List IncCall := List.replicate (2 * pops) .stop

/-- `_xml_close_incrental_root`. -/
def closeRoot : List IncCall := [.stop, .stop]

/-- `_xml_write_incremental_delete`, without the element itself. -/
def deletedPiece (name : Name) : Piece where
  calls := [.leaf (toString name), .start "deleted", .stop]
  balanced := rfl

namespace Increment

variable (inc : Increment)

/-- The directories an entry lies in. -/
def parents (e : JournalEntry) : Option (List ℕ) :=
  incjCreatePathHelper inc.tree root e.fullPath.dropLast

/-- `_xml_open_incremental_dir`, at the `n`th call. -/
def openDir (n d : ℕ) : List IncCall :=
  .start (.directory d) :: (inc.about n d).script ++ [.start .contents]

/-- `_xml_open_incremental_dirs`. -/
def openDirs (n : ℕ) : List ℕ → List IncCall
  | [] => []
  | d :: dirs => inc.openDir n d ++ openDirs (n + (inc.openDir n d).length) dirs

/-- `_xml_goto_increment_parent`: the calls, and the directories that are open after
them.  The first call stands for the allocations of the path helper. -/
def gotoIncrementParent (n : ℕ) (cur : List ℕ) (e : JournalEntry) :
    Option (List IncCall × List ℕ) :=
  (inc.parents e).map fun new =>
    let common := incjComparePath cur new
    let closing := .check :: closeDirs (cur.length - common)
    (closing ++ inc.openDirs (n + closing.length) (new.drop common), new)

/-- What the element of an entry holds: the dentry as the full index has it, or the
name of a deleted object. -/
def piece (n : ℕ) (e : JournalEntry) : Piece :=
  match e.reason with
  | .deleteFile name | .deleteDirectory name => deletedPiece name
  | _ => inc.body n e

def element (n : ℕ) (e : JournalEntry) : List IncCall :=
  .start (.entry e) :: (inc.piece n e).script ++ [.stop]

/-- All calls for one entry. -/
def entryScript (n : ℕ) (cur : List ℕ) (e : JournalEntry) :
    Option (List IncCall × List ℕ) :=
  (inc.gotoIncrementParent n cur e).map fun (calls, new) =>
    (calls ++ inc.element (n + calls.length) e, new)

/-- The start of `_xml_write_incremental_schema`.  The first two calls stand for the
format of the time and the start of the document. -/
def opening : List IncCall :=
  [.check, .check, .start .index] ++ inc.properties.script

/-- `_xml_open_incrental_root`, and the path helper of the root. -/
def openRoot (n : ℕ) : List IncCall := inc.openDir n root ++ [.check]

/-- The preserved tags, and the end of the top-level element. -/
def closing : List IncCall :=
  (List.range inc.tagCount).map (fun i => .leaf (.preserved i)) ++ [.stop]

end Increment

/-- The state of the loop over the journal; `written` lists the entries that have been
written to their end. -/
structure Progress where
  failed : Bool
  parent : List ℕ
  writer : IncWriter
  written : List JournalEntry

section Writing

variable (inc : Increment) (faults late : ℕ → Option Fault)

/-- One round of the loop. -/
def writeEntry (p : Progress) (e : JournalEntry) : Option Progress :=
  if p.failed then some p
  else
    (inc.entryScript p.writer.calls p.parent e).map fun (calls, new) =>
      let (ok, w) := p.writer.perform faults calls
      if ok then ⟨false, new, w, p.written ++ [e]⟩
      else { p with failed := true, writer := w }

def writeEntries : List JournalEntry → Progress → Option Progress
  | [], p => some p
  | e :: es, p => (writeEntry inc faults p e).bind (writeEntries es)

/-- A document: the status it is returned with, the writer, and the entries that have
been written to their end. -/
structure Written where
  status : Bool
  writer : IncWriter
  entries : List JournalEntry

/-- The end of `_xml_write_inc_journal`. -/
def xmlCloseJournal (p : Progress) : Written :=
  let (ok, w) := p.writer.perform late closeRoot
  ⟨ok, w, p.written⟩

/-- `_xml_write_inc_journal`, for the entries in the order of `incj_sort`.  The status
of the entries is overwritten by that of the calls that close the root; `late` holds
the faults of the calls from there on. -/
def xmlWriteIncJournal (entries : List JournalEntry) (w : IncWriter) : Option Written :=
  match w.perform faults (inc.openRoot w.calls) with
  | (false, w) => some ⟨false, w, []⟩
  | (true, w) =>
    (writeEntries inc faults entries ⟨false, [], w, []⟩).map (xmlCloseJournal late)

/-- The end of `_xml_write_incremental_schema`. -/
def xmlEndSchema (r : Written) : Written :=
  if r.status then
    match r.writer.perform late inc.closing with
    | (false, w) => { r with status := false, writer := w }
    | (true, w) =>
      let (ok, w) := w.finish late
      { r with status := ok, writer := w }
  else r

/-- `_xml_write_incremental_schema`. -/
def xmlWriteIncrementalSchema (entries : List JournalEntry) : Option Written :=
  match TextWriter.fresh.perform faults inc.opening with
  | (false, w) => some ⟨false, w, []⟩
  | (true, w) => (xmlWriteIncJournal inc faults late entries w).map (xmlEndSchema inc late)

end Writing

/-- The entries whose elements a document has, in order. -/
def entryElements (doc : List IncEvent) : List JournalEntry :=
  doc.filterMap fun
    | .opened (.entry e) => some e
    | _ => none

@[simp]
theorem entryElements_append (doc doc' : List IncEvent) :
    entryElements (doc ++ doc') = entryElements doc ++ entryElements doc' :=
  List.filterMap_append

/-! ## Where the calls lead -/

/-- The open elements inside of directories that are opened within `st`. -/
def within (st : List IncTag) (dirs : List ℕ) : List IncTag :=
  dirs.foldl (fun st d => .contents :: .directory d :: st) st

@[simp]
theorem within_nil (st : List IncTag) : within st [] = st := rfl

@[simp]
theorem within_cons (st : List IncTag) (d : ℕ) (dirs : List ℕ) :
    within st (d :: dirs) = within (.contents :: .directory d :: st) dirs := rfl

@[simp]
theorem within_append (st : List IncTag) (dirs dirs' : List ℕ) :
    within st (dirs ++ dirs') = within (within st dirs) dirs' :=
  List.foldl_append

/-- The open elements of the top level, and of the directories below the root. -/
def inside (dirs : List ℕ) : List IncTag := within [.index] (root :: dirs)

open WriterCall

theorem incjComparePath_spec (now next : List ℕ) :
    ∃ common a b, now = common ++ a ∧ next = common ++ b ∧
      incjComparePath now next = common.length ∧
      ∀ x y a' b', a = x :: a' → b = y :: b' → x ≠ y := by
  induction now generalizing next with
  | nil => exact ⟨[], [], next, rfl, rfl, rfl, by simp⟩
  | cons x now ih =>
    cases next with
    | nil => exact ⟨[], x :: now, [], rfl, rfl, rfl, by simp⟩
    | cons y next =>
      rw [incjComparePath]
      by_cases hxy : x = y
      · subst hxy
        obtain ⟨common, a, b, rfl, rfl, hlength, hdiffer⟩ := ih next
        exact ⟨x :: common, a, b, rfl, rfl, by simp [hlength], hdiffer⟩
      · refine ⟨[], x :: now, y :: next, rfl, rfl, by simp [hxy], ?_⟩
        intro x' y' a' b' hx hy
        rw [← (List.cons.inj hx).1, ← (List.cons.inj hy).1]
        exact hxy

theorem closeDirs_succ (pops : ℕ) : closeDirs (pops + 1) = closeDirs pops ++ [.stop, .stop] :=
  List.replicate_add (2 * pops) 2 (stop : IncCall)

theorem reach_closeDirs (st : List IncTag) (dirs : List ℕ) :
    reach (within st dirs) (closeDirs dirs.length) = some st := by
  induction dirs generalizing st with
  | nil => rfl
  | cons d dirs ih =>
    rw [List.length_cons, closeDirs_succ, reach_append, within_cons, ih]
    rfl

namespace Increment

variable (inc : Increment)

theorem reach_script (piece : Piece) (st : List IncTag) : reach st piece.script = some st :=
  Fragment.reach_embed _ _ piece st

theorem reach_openDir (n d : ℕ) (st : List IncTag) :
    reach st (inc.openDir n d) = some (.contents :: .directory d :: st) := by
  simp [openDir, reach, reach_append, reach_script]

theorem reach_openDirs (n : ℕ) (dirs : List ℕ) (st : List IncTag) :
    reach st (inc.openDirs n dirs) = some (within st dirs) := by
  induction dirs generalizing n st with
  | nil => rfl
  | cons d dirs ih => simp [openDirs, reach_append, reach_openDir, ih]

theorem reach_element (n : ℕ) (e : JournalEntry) (st : List IncTag) :
    reach st (inc.element n e) = some st := by
  simp [element, reach, reach_append, reach_script]

theorem reach_opening : reach [] inc.opening = some [.index] := by
  simp [opening, reach, reach_script]

theorem reach_openRoot (n : ℕ) : reach [.index] (inc.openRoot n) = some (inside []) := by
  simp [openRoot, reach_append, reach_openDir, reach, inside]

section Entry

variable {calls : List IncCall} {cur new : List ℕ} {e : JournalEntry} {n : ℕ}

/-- The parts of the way from one parent to the next: what is closed, and what is
opened. -/
theorem gotoIncrementParent_eq (h : inc.gotoIncrementParent n cur e = some (calls, new)) :
    inc.parents e = some new ∧ ∃ common a b m, cur = common ++ a ∧ new = common ++ b ∧
      calls = .check :: closeDirs a.length ++ inc.openDirs m b ∧
      ∀ x y a' b', a = x :: a' → b = y :: b' → x ≠ y := by
  obtain ⟨dirs, hparents, heq⟩ := Option.map_eq_some_iff.1 h
  obtain ⟨hcalls, rfl⟩ := Prod.mk.inj heq
  obtain ⟨common, a, b, rfl, rfl, hlength, hdiffer⟩ := incjComparePath_spec cur dirs
  rw [hlength, List.length_append, Nat.add_sub_cancel_left, List.drop_left] at hcalls
  exact ⟨hparents, common, a, b, _, rfl, rfl, hcalls.symm, hdiffer⟩

theorem reach_gotoIncrementParent (h : inc.gotoIncrementParent n cur e = some (calls, new)) :
    reach (inside cur) calls = some (inside new) := by
  obtain ⟨-, common, a, b, m, rfl, rfl, rfl, -⟩ := inc.gotoIncrementParent_eq h
  simp only [inside, ← List.cons_append, within_append]
  rw [List.cons_append, reach, reach_append, reach_closeDirs]
  exact inc.reach_openDirs m b _

theorem reach_entryScript (h : inc.entryScript n cur e = some (calls, new)) :
    reach (inside cur) calls = some (inside new) := by
  obtain ⟨⟨goto, dirs⟩, hgoto, heq⟩ := Option.map_eq_some_iff.1 h
  obtain ⟨rfl, rfl⟩ := Prod.mk.inj heq
  rw [reach_append, inc.reach_gotoIncrementParent hgoto]
  exact inc.reach_element _ e _

end Entry

end Increment

/-! ## The loop over the journal -/

section Loop

variable {inc : Increment} {faults : ℕ → Option Fault} {p : Progress} {e : JournalEntry}
  {calls : List IncCall} {new : List ℕ}

section Open

variable (hfailed : p.failed = false) (hstack : p.writer.stack = inside p.parent)
  (hscript : inc.entryScript p.writer.calls p.parent e = some (calls, new))

include hfailed hstack hscript

/-- An entry whose calls meet no fault is written. -/
theorem writeEntry_of_none
    (hnone : TextWriter.firstFault faults p.writer.calls calls.length = none) :
    writeEntry inc faults p e =
      some ⟨false, new, p.writer.after calls, p.written ++ [e]⟩ := by
  have hperform : p.writer.perform faults calls = (true, p.writer.after calls) :=
    TextWriter.perform_of_none (by rw [hstack]; exact inc.reach_entryScript hscript) hnone
  simp [writeEntry, hfailed, hscript, hperform]

/-- An entry whose calls meet a fault ends the output of entries. -/
theorem writeEntry_of_some {f : Fault}
    (hsome : TextWriter.firstFault faults p.writer.calls calls.length = some f) :
    ∃ w : IncWriter, w.faulted = p.writer.faulted ++ [f] ∧
      writeEntry inc faults p e = some { p with failed := true, writer := w } := by
  obtain ⟨hfalse, hfaulted⟩ := TextWriter.perform_of_some
    (by rw [hstack]; exact inc.reach_entryScript hscript) hsome
  exact ⟨_, hfaulted, by simp [writeEntry, hfailed, hscript, hfalse]⟩

end Open

theorem writeEntries_failed (entries : List JournalEntry) (hfailed : p.failed = true) :
    writeEntries inc faults entries p = some p := by
  induction entries with
  | nil => rfl
  | cons e es ih => simp [writeEntries, writeEntry, hfailed, ih]

theorem writeEntry_crash (hfailed : p.failed = false)
    (hscript : inc.entryScript p.writer.calls p.parent e = none) :
    writeEntry inc faults p e = none := by
  simp [writeEntry, hfailed, hscript]

end Loop

end AuroraLtfs.Incj
