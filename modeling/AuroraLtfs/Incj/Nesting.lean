import AuroraLtfs.Incj.Document

/-!
# The nesting of the incremental document

In a document that is written without a fault, every entry stands in the contents of
exactly the directories of its parent path, no directory is opened again right after
it was closed, and everything that is opened gets closed.  The calls that close the
root close the innermost directory instead if the last entry was not in the root:
the preserved tags then stand in a directory.
-/

namespace AuroraLtfs.Incj

open Fs WriterCall

/-- An entry stands in the directories of its parent path, and a directory that is
opened is not the one that was closed just before. -/
def Placed (inc : Increment) (c : Cursor IncTag) : IncEvent → Prop
  | .opened (.entry e) => ∃ dirs, inc.parents e = some dirs ∧ c.stack = inside dirs
  | .opened (.directory d) => c.justClosed ≠ some (.directory d)
  | _ => True

/-- A preserved tag is a child of the top-level element. -/
def Kept (c : Cursor IncTag) : IncEvent → Prop
  | .wrote (.preserved _) => c.stack = [.index]
  | _ => True

structure Nested (inc : Increment) (entries : List JournalEntry) (doc : List IncEvent) :
    Prop where
  closed : (Cursor.start.run doc).stack = []
  elements : entryElements doc = entries
  placed : Everywhere (Placed inc) .start doc
  kept : Everywhere Kept .start doc

/-- As `Placed`, in a part of the document without preserved tags. -/
def Tidy (inc : Increment) (c : Cursor IncTag) : IncEvent → Prop
  | .wrote (.preserved _) => False
  | e => Placed inc c e

section Tidy

variable {inc : Increment} {c : Cursor IncTag} {doc : List IncEvent}

theorem Tidy.placed (h : Everywhere (Tidy inc) c doc) : Everywhere (Placed inc) c doc := by
  apply h.mono
  intro c e he
  match e, he with
  | .wrote (.text _), he => exact he
  | .opened _, he => exact he
  | .closed, he => exact he

theorem Tidy.kept (h : Everywhere (Tidy inc) c doc) : Everywhere Kept c doc := by
  apply h.mono
  intro c e he
  match e, he with
  | .wrote (.text _), _ => trivial
  | .opened _, _ => trivial
  | .closed, _ => trivial

theorem tidy_script (piece : Piece) (c : Cursor IncTag) :
    Everywhere (Tidy inc) c (document piece.script) := by
  apply everywhere_of_forall
  intro e he c
  obtain ⟨tag, rfl⟩ | rfl | ⟨item, rfl⟩ := Fragment.mem_document_embed he <;> trivial

theorem entryElements_script (piece : Piece) :
    entryElements (document piece.script) = [] := by
  apply List.filterMap_eq_nil_iff.2
  intro e he
  obtain ⟨tag, rfl⟩ | rfl | ⟨item, rfl⟩ := Fragment.mem_document_embed he <;> rfl

theorem script_stack (piece : Piece) (c : Cursor IncTag) :
    (c.run (document piece.script)).stack = c.stack :=
  run_document (Increment.reach_script piece c.stack) rfl

theorem document_closeDirs (pops : ℕ) :
    document (closeDirs pops) = List.replicate (2 * pops) .closed := by
  rw [document, closeDirs, List.flatMap_replicate]
  simp [events]

theorem tidy_closed (n : ℕ) (c : Cursor IncTag) :
    Everywhere (Tidy inc) c (List.replicate n .closed) := by
  apply everywhere_of_forall
  intro e he c
  rw [List.eq_of_mem_replicate he]
  trivial

theorem entryElements_closed (n : ℕ) : entryElements (List.replicate n .closed) = [] := by
  simp [entryElements]

/-- After directories have been closed, the outermost of them was the last one. -/
theorem run_closeDirs {st : List IncTag} {dirs : List ℕ} (h : c.stack = within st dirs) :
    (c.run (document (closeDirs dirs.length))).stack = st ∧
      ∀ d rest, dirs = d :: rest →
        (c.run (document (closeDirs dirs.length))).justClosed = some (.directory d) := by
  refine ⟨run_document (reach_closeDirs st dirs) h, ?_⟩
  rintro d rest rfl
  have hrest := run_document (reach_closeDirs (.contents :: .directory d :: st) rest) h
  rw [List.length_cons, closeDirs_succ, document_append, Cursor.run_append]
  simp [events, Cursor.step, hrest]

theorem document_openDir (n d : ℕ) : document (inc.openDir n d) =
    [.opened (.directory d)] ++ document (inc.about n d).script ++ [.opened .contents] := by
  simp [Increment.openDir, events]

theorem document_element (n : ℕ) (e : JournalEntry) : document (inc.element n e) =
    [.opened (.entry e)] ++ document (inc.piece n e).script ++ [.closed] := by
  simp [Increment.element, events]

theorem run_openDir (n d : ℕ) (c : Cursor IncTag) :
    c.run (document (inc.openDir n d)) = ⟨.contents :: .directory d :: c.stack, none⟩ := by
  rw [document_openDir, Cursor.run_append, Cursor.run_append]
  simp [Cursor.step, script_stack]

theorem tidy_openDir (n : ℕ) {d : ℕ} (hclosed : c.justClosed ≠ some (.directory d)) :
    Everywhere (Tidy inc) c (document (inc.openDir n d)) := by
  rw [document_openDir, everywhere_append, everywhere_append]
  exact ⟨⟨⟨hclosed, trivial⟩, tidy_script _ _⟩, trivial, trivial⟩

theorem entryElements_openDir (n d : ℕ) :
    entryElements (document (inc.openDir n d)) = [] := by
  rw [document_openDir, entryElements_append, entryElements_append, entryElements_script]
  rfl

theorem tidy_openDirs (n : ℕ) {dirs : List ℕ}
    (hclosed : ∀ d rest, dirs = d :: rest → c.justClosed ≠ some (.directory d)) :
    Everywhere (Tidy inc) c (document (inc.openDirs n dirs)) := by
  induction dirs generalizing n c with
  | nil => trivial
  | cons d dirs ih =>
    rw [Increment.openDirs, document_append, everywhere_append, run_openDir]
    refine ⟨tidy_openDir n (hclosed d dirs rfl), ih _ ?_⟩
    simp

theorem entryElements_openDirs (n : ℕ) (dirs : List ℕ) :
    entryElements (document (inc.openDirs n dirs)) = [] := by
  induction dirs generalizing n with
  | nil => rfl
  | cons d dirs ih =>
    rw [Increment.openDirs, document_append, entryElements_append, ih,
      entryElements_openDir]
    rfl

theorem entryElements_goto {n : ℕ} {cur new : List ℕ} {e : JournalEntry}
    {calls : List IncCall} (h : inc.gotoIncrementParent n cur e = some (calls, new)) :
    entryElements (document calls) = [] := by
  obtain ⟨-, common, a, b, m, -, -, rfl, -⟩ := inc.gotoIncrementParent_eq h
  rw [document_append, entryElements_append, entryElements_openDirs, document_cons,
    document_closeDirs, entryElements_append, entryElements_closed]
  rfl

theorem entryElements_element (n : ℕ) (e : JournalEntry) :
    entryElements (document (inc.element n e)) = [e] := by
  rw [document_element, entryElements_append, entryElements_append, entryElements_script]
  rfl

section Entry

variable {calls : List IncCall} {cur new : List ℕ} {e : JournalEntry} {n : ℕ}

theorem entryElements_entryScript (h : inc.entryScript n cur e = some (calls, new)) :
    entryElements (document calls) = [e] := by
  obtain ⟨⟨goto, dirs⟩, hgoto, heq⟩ := Option.map_eq_some_iff.1 h
  obtain ⟨rfl, rfl⟩ := Prod.mk.inj heq
  rw [document_append, entryElements_append, entryElements_goto hgoto,
    entryElements_element]
  rfl

/-- The way to the parent of the next entry. -/
theorem tidy_goto (h : inc.gotoIncrementParent n cur e = some (calls, new))
    (hc : c.stack = inside cur) (hclosed : ∀ d, c.justClosed ≠ some (.directory d)) :
    Everywhere (Tidy inc) c (document calls) := by
  obtain ⟨-, common, a, b, m, rfl, rfl, rfl, hdiffer⟩ := inc.gotoIncrementParent_eq h
  rw [inside, ← List.cons_append, within_append] at hc
  obtain ⟨-, hlast⟩ := run_closeDirs hc
  rw [document_append, everywhere_append]
  constructor
  · rw [document_cons, document_closeDirs]
    exact tidy_closed _ c
  · apply tidy_openDirs m
    rintro y b' rfl
    cases a with
    | nil => exact hclosed y
    | cons x a' =>
      have hx : (c.run (document (.check :: closeDirs (x :: a').length))).justClosed =
          some (.directory x) := hlast x a' rfl
      rw [hx]
      simpa using hdiffer x y a' b' rfl rfl

/-- The calls for one entry. -/
theorem tidy_entryScript (h : inc.entryScript n cur e = some (calls, new))
    (hc : c.stack = inside cur) (hclosed : ∀ d, c.justClosed ≠ some (.directory d)) :
    Everywhere (Tidy inc) c (document calls) ∧
      ∀ d, (c.run (document calls)).justClosed ≠ some (.directory d) := by
  obtain ⟨⟨goto, dirs⟩, hgoto, heq⟩ := Option.map_eq_some_iff.1 h
  obtain ⟨rfl, rfl⟩ := Prod.mk.inj heq
  obtain ⟨hparents, -⟩ := inc.gotoIncrementParent_eq hgoto
  have hstack := run_document (inc.reach_gotoIncrementParent hgoto) hc
  rw [document_append, everywhere_append, Cursor.run_append, document_element]
  refine ⟨⟨tidy_goto hgoto hc hclosed, ?_⟩, ?_⟩
  · rw [everywhere_append, everywhere_append]
    exact ⟨⟨⟨⟨dirs, hparents, hstack⟩, trivial⟩, tidy_script _ _⟩, trivial, trivial⟩
  · intro d
    simp [Cursor.step, script_stack]

end Entry

end Tidy

/-! ## The whole document -/

/-- Between two entries: the directories on record are open, and the last thing closed
was not a directory. -/
structure Ready (p : Progress) : Prop where
  running : p.failed = false
  stack : p.writer.stack = inside p.parent
  justClosed : ∀ d, (Cursor.start.run p.writer.document).justClosed ≠ some (.directory d)

section Document

variable {inc : Increment} {p q : Progress} {entries : List JournalEntry}

/-- The document of the entries, and where it leads. -/
structure Proceeds (inc : Increment) (entries : List JournalEntry) (p q : Progress) :
    Prop where
  ready : Ready q
  document : ∃ doc, q.writer.document = p.writer.document ++ doc ∧
    Everywhere (Tidy inc) (Cursor.start.run p.writer.document) doc ∧
    entryElements doc = entries
  parent : entries = [] → q.parent = p.parent
  last : ∀ e, entries.getLast? = some e → inc.parents e = some q.parent

theorem Ready.writeEntry {e : JournalEntry} (hp : Ready p)
    (h : writeEntry inc (fun _ => none) p e = some q) : Proceeds inc [e] p q := by
  cases hscript : inc.entryScript p.writer.calls p.parent e with
  | none => rw [writeEntry_crash hp.running hscript] at h; cases h
  | some script =>
    obtain ⟨calls, new⟩ := script
    rw [writeEntry_of_none hp.running hp.stack hscript (TextWriter.firstFault_noFault _ _)]
      at h
    cases h
    have hreach := inc.reach_entryScript hscript
    have helements := entryElements_entryScript hscript
    obtain ⟨htidy, hclosed⟩ := tidy_entryScript hscript hp.stack hp.justClosed
    refine ⟨⟨rfl, ?_, ?_⟩, ⟨_, rfl, htidy, helements⟩, by simp, ?_⟩
    · exact TextWriter.after_stack (by rw [hp.stack]; exact hreach)
    · simpa [TextWriter.after] using hclosed
    · intro e' he'
      obtain rfl : e = e' := by simpa using he'
      obtain ⟨⟨goto, dirs⟩, hgoto, heq⟩ := Option.map_eq_some_iff.1 hscript
      obtain ⟨-, rfl⟩ := Prod.mk.inj heq
      exact (inc.gotoIncrementParent_eq hgoto).1

/-- Run lemma: the document of a whole journal. -/
theorem Ready.writeEntries (hp : Ready p)
    (h : writeEntries inc (fun _ => none) entries p = some q) :
    Proceeds inc entries p q := by
  induction entries generalizing p with
  | nil =>
    cases h
    exact ⟨hp, ⟨[], by simp, trivial, rfl⟩, fun _ => rfl, by simp⟩
  | cons e es ih =>
    obtain ⟨next, hfirst, hrest⟩ := Option.bind_eq_some_iff.1 h
    have hone := hp.writeEntry hfirst
    obtain ⟨doc, hdoc, htidy, helements⟩ := hone.document
    have hmore := ih hone.ready hrest
    obtain ⟨doc', hdoc', htidy', helements'⟩ := hmore.document
    refine ⟨hmore.ready, ⟨doc ++ doc', ?_, ?_, ?_⟩, by simp, ?_⟩
    · rw [hdoc', hdoc, List.append_assoc]
    · rw [everywhere_append, ← Cursor.run_append, ← hdoc]
      exact ⟨htidy, htidy'⟩
    · rw [entryElements_append, helements, helements']
      rfl
    · intro last hlast
      cases es with
      | nil =>
        rw [hmore.parent rfl]
        exact hone.last last hlast
      | cons e' es' => exact hmore.last last (by simpa using hlast)

end Document

/-- The document of `_xml_write_incremental_schema` where no call fails. -/
def incrementalDocument (inc : Increment) (entries : List JournalEntry) :
    Option (List IncEvent) :=
  (xmlWriteIncrementalSchema inc (fun _ => none) (fun _ => none) entries).map
    fun r => r.writer.document

section Schema

variable (inc : Increment)

/-- The loop at its start. -/
def atRoot : Progress where
  failed := false
  parent := []
  writer :=
    let w := TextWriter.fresh.after inc.opening
    w.after (inc.openRoot w.calls)
  written := []

theorem document_openRoot (n : ℕ) :
    document (inc.openRoot n) = document (inc.openDir n root) := by
  simp [Increment.openRoot, events]

theorem opening_stack : (TextWriter.fresh.after inc.opening : IncWriter).stack = [.index] :=
  TextWriter.after_stack inc.reach_opening

theorem perform_opening {faults : ℕ → Option Fault}
    (hnone : TextWriter.firstFault faults 0 inc.opening.length = none) :
    TextWriter.fresh.perform faults inc.opening =
      (true, (TextWriter.fresh.after inc.opening : IncWriter)) :=
  TextWriter.perform_of_none inc.reach_opening hnone

theorem reach_root : reach (TextWriter.fresh.after inc.opening : IncWriter).stack
    (inc.openRoot (TextWriter.fresh.after inc.opening : IncWriter).calls) =
    some (inside []) := by
  rw [opening_stack]
  exact inc.reach_openRoot _

theorem atRoot_stack : (atRoot inc).writer.stack = inside [] :=
  TextWriter.after_stack (reach_root inc)

/-- The document up to the first entry. -/
theorem tidy_atRoot : Everywhere (Tidy inc) .start (atRoot inc).writer.document ∧
    entryElements (atRoot inc).writer.document = [] ∧ Ready (atRoot inc) := by
  have hdoc : (atRoot inc).writer.document =
      ([.opened .index] ++ document inc.properties.script) ++
        document (inc.openDir (0 + inc.opening.length) root) := by
    simp [atRoot, TextWriter.after, TextWriter.fresh, document_openRoot, Increment.opening,
      events]
  have hclosed : (Cursor.start.run ([.opened .index] ++
      document inc.properties.script)).justClosed ≠ some (.directory root) := by
    rw [Cursor.run_append]
    exact justClosed_map (P := fun tag : Option IncTag => tag ≠ some (.directory root)) _
      (by simp) (by simp) inc.properties.balanced rfl (by simp [Cursor.step])
  refine ⟨?_, ?_, rfl, atRoot_stack inc, ?_⟩
  · rw [hdoc, everywhere_append, everywhere_append]
    exact ⟨⟨⟨trivial, trivial⟩, tidy_script _ _⟩, tidy_openDir _ hclosed⟩
  · rw [hdoc, entryElements_append, entryElements_append, entryElements_script,
      entryElements_openDir]
    rfl
  · intro d
    rw [hdoc, Cursor.run_append, run_openDir]
    simp

theorem inside_eq_cons (dirs : List ℕ) : ∃ st, inside dirs = .contents :: st := by
  obtain rfl | ⟨dirs, d, rfl⟩ := dirs.eq_nil_or_concat
  · exact ⟨_, rfl⟩
  · exact ⟨.directory d :: inside dirs, by simp [inside, List.concat_eq_append]⟩

/-- The calls that close the root lead to the top level from the root only. -/
theorem reach_closeRoot (dirs : List ℕ) :
    ∃ tag st, reach (inside dirs) closeRoot = some (tag :: st) ∧
      (tag :: st = [.index] ↔ dirs = []) := by
  obtain rfl | ⟨dirs, d, rfl⟩ := dirs.eq_nil_or_concat
  · exact ⟨.index, [], rfl, by simp⟩
  · obtain ⟨st, hst⟩ := inside_eq_cons dirs
    refine ⟨.contents, st, ?_, by simp⟩
    rw [← hst]
    simp [inside, List.concat_eq_append, closeRoot, reach]

/-- The preserved tags stand at the top level, or there are none. -/
theorem everywhere_kept_tags (tags : List ℕ) (c : Cursor IncTag) :
    Everywhere Kept c (tags.map fun i => .wrote (.preserved i)) ↔
      tags = [] ∨ c.stack = [.index] := by
  induction tags generalizing c with
  | nil => simp
  | cons i tags ih =>
    rw [List.map_cons, everywhere_cons, ih]
    simp only [Kept, Cursor.step, List.cons_ne_nil, false_or]
    tauto

theorem reach_tags (tags : List ℕ) (st : List IncTag) :
    reach st (tags.map fun i => (.leaf (.preserved i) : IncCall)) = some st := by
  induction tags with
  | nil => rfl
  | cons i tags ih => exact ih

theorem document_tags (tags : List ℕ) :
    document (tags.map fun i => (.leaf (.preserved i) : IncCall)) =
      tags.map fun i => .wrote (.preserved i) := by
  induction tags with
  | nil => rfl
  | cons i tags ih =>
    rw [List.map_cons, document_cons, ih]
    rfl

variable {inc} {entries : List JournalEntry} {doc : List IncEvent}

/-- The parts of a document. -/
theorem incrementalDocument_eq (h : incrementalDocument inc entries = some doc) :
    (Cursor.start.run doc).stack = [] ∧ ∃ q n, Proceeds inc entries (atRoot inc) q ∧
      doc = q.writer.document ++ List.replicate 2 .closed ++
        (List.range inc.tagCount).map (fun i => .wrote (.preserved i)) ++
        List.replicate n .closed := by
  have hopening := perform_opening inc (TextWriter.firstFault_noFault 0 _)
  have hroot : (TextWriter.fresh.after inc.opening).perform (fun _ => none)
      (inc.openRoot (TextWriter.fresh.after inc.opening : IncWriter).calls) =
      (true, (atRoot inc).writer) :=
    TextWriter.perform_of_none (reach_root inc) (TextWriter.firstFault_noFault _ _)
  rw [incrementalDocument, xmlWriteIncrementalSchema, hopening] at h
  dsimp only at h
  rw [xmlWriteIncJournal, hroot] at h
  simp only [Option.map_map, Option.map_eq_some_iff, Function.comp_apply] at h
  obtain ⟨q, hwritten, rfl⟩ := h
  have hq := (tidy_atRoot inc).2.2.writeEntries hwritten
  obtain ⟨tag, st, hclose, -⟩ := reach_closeRoot q.parent
  have hcloseRoot : q.writer.perform (fun _ => none) closeRoot =
      (true, q.writer.after closeRoot) :=
    TextWriter.perform_of_none (by rw [hq.ready.stack]; exact hclose)
      (TextWriter.firstFault_noFault _ _)
  have hstack : (q.writer.after closeRoot).stack = tag :: st :=
    TextWriter.after_stack (by rw [hq.ready.stack]; exact hclose)
  have hclosing : (q.writer.after closeRoot).perform (fun _ => none) inc.closing =
      (true, (q.writer.after closeRoot).after inc.closing) := by
    have hreach : reach (q.writer.after closeRoot).stack inc.closing = some st := by
      rw [hstack, Increment.closing, reach_append, reach_tags]
      rfl
    exact TextWriter.perform_of_none hreach (TextWriter.firstFault_noFault _ _)
  simp only [xmlCloseJournal, hcloseRoot, xmlEndSchema, if_true, hclosing]
  refine ⟨(TextWriter.finish_stack _ _ rfl).2, q,
    1 + ((q.writer.after closeRoot).after inc.closing).stack.length, hq, ?_⟩
  generalize hlast : ((q.writer.after closeRoot).after inc.closing).stack.length = n
  simp [TextWriter.finish, hlast, List.replicate_add]
  simp [TextWriter.after, closeRoot, Increment.closing, document_tags, events]

theorem incjCreatePathHelper_length {s : LtfsIndex} {d : ℕ} {path : Path}
    {dirs : List ℕ} (h : incjCreatePathHelper s d path = some dirs) :
    dirs.length = path.length := by
  induction path generalizing d dirs with
  | nil =>
    cases h
    rfl
  | cons name rest ih =>
    rw [incjCreatePathHelper] at h
    split at h
    · cases h
    · cases hfound : (s.dentry d).findKey name with
      | none => simp [hfound] at h
      | some child =>
        simp only [hfound, Option.map_eq_some_iff] at h
        obtain ⟨below, hbelow, rfl⟩ := h
        simp [ih hbelow]

/-- The directories that are open after the last entry are those of its parent. -/
theorem Proceeds.parent_eq_nil_iff {q : Progress} (hq : Proceeds inc entries (atRoot inc) q) :
    q.parent = [] ↔ ∀ e, entries.getLast? = some e → e.fullPath.dropLast = [] := by
  cases hlast : entries.getLast? with
  | none => simpa [atRoot] using hq.parent (List.getLast?_eq_none_iff.1 hlast)
  | some e =>
    have hlength := incjCreatePathHelper_length (hq.last e hlast)
    rw [← List.length_eq_zero_iff, hlength, List.length_eq_zero_iff]
    simp

/-- A document that is written without a fault: entries, directories and the end of
all elements are always in order; the preserved tags are if and only if there are
none, or the last entry is in the root. -/
theorem incrementalDocument_nested_iff (h : incrementalDocument inc entries = some doc) :
    Nested inc entries doc ↔ inc.tagCount = 0 ∨
      ∀ e, entries.getLast? = some e → e.fullPath.dropLast = [] := by
  obtain ⟨hclosed, q, n, hq, rfl⟩ := incrementalDocument_eq h
  obtain ⟨hrootTidy, hrootElements, -⟩ := tidy_atRoot inc
  obtain ⟨doc, hdoc, htidy, helements⟩ := hq.document
  have hentries : Everywhere (Tidy inc) .start (q.writer.document ++ List.replicate 2 .closed) := by
    rw [everywhere_append, hdoc, everywhere_append]
    exact ⟨⟨hrootTidy, htidy⟩, tidy_closed 2 _⟩
  have htags : entryElements ((List.range inc.tagCount).map fun i =>
      (.wrote (.preserved i) : IncEvent)) = [] := by
    simp [entryElements]
  -- The tags stand where the calls that close the root lead to.
  obtain ⟨tag, st, hreach, htop⟩ := reach_closeRoot q.parent
  have hstack : (Cursor.start.run
      (q.writer.document ++ List.replicate 2 .closed)).stack = tag :: st := by
    rw [Cursor.run_append]
    exact run_document hreach hq.ready.stack
  have hkept : Everywhere Kept .start (q.writer.document ++ List.replicate 2 .closed ++
      (List.range inc.tagCount).map (fun i => .wrote (.preserved i)) ++
      List.replicate n .closed) ↔ inc.tagCount = 0 ∨ q.parent = [] := by
    rw [everywhere_append, everywhere_append, everywhere_kept_tags, hstack, htop,
      List.range_eq_nil]
    exact ⟨fun h => h.1.2, fun h => ⟨⟨Tidy.kept hentries, h⟩, Tidy.kept (@tidy_closed inc n _)⟩⟩
  rw [← hq.parent_eq_nil_iff, ← hkept]
  refine ⟨fun h => h.kept, fun hk => ⟨hclosed, ?_, ?_, hk⟩⟩
  · simp only [entryElements_append, entryElements_closed, htags, hdoc, hrootElements,
      helements, List.nil_append, List.append_nil]
  · rw [everywhere_append, everywhere_append]
    refine ⟨⟨Tidy.placed hentries, ?_⟩, Tidy.placed (tidy_closed n _)⟩
    apply everywhere_of_forall
    intro e he c
    obtain ⟨i, -, rfl⟩ := List.mem_map.1 he
    trivial

end Schema

/-- A tree with a directory `a` (dentry 1) that holds a file `f` (dentry 2), one
preserved tag, and nothing said about the objects. -/
def sampleIncrement : Increment where
  tree := { ltfsIndexAlloc 4 with
    dentry := fun
      | 0 => { isdir := true, childList := [([0x61], 1)] }
      | 1 => { isdir := true, childList := [([0x66], 2)] }
      | _ => {} }
  properties := ⟨[], rfl⟩
  about := fun _ _ => ⟨[], rfl⟩
  body := fun _ _ => ⟨[], rfl⟩
  tagCount := 1

/-- A file of the directory is modified, and a file of the root deleted. -/
theorem incrementalDocument_nested_iff_root :
    ∃ doc, incrementalDocument sampleIncrement
        [⟨[[0x61], [0x66]], 3, .modify 2⟩, ⟨[[0x62]], 4, .deleteFile [0x62]⟩] = some doc ∧
      Nested sampleIncrement
        [⟨[[0x61], [0x66]], 3, .modify 2⟩, ⟨[[0x62]], 4, .deleteFile [0x62]⟩] doc := by
  have hsome : (incrementalDocument sampleIncrement
      [⟨[[0x61], [0x66]], 3, .modify 2⟩, ⟨[[0x62]], 4, .deleteFile [0x62]⟩]).isSome := by
    decide +kernel
  obtain ⟨doc, hdoc⟩ := Option.isSome_iff_exists.1 hsome
  refine ⟨doc, hdoc, (incrementalDocument_nested_iff hdoc).2 (.inr ?_)⟩
  intro e he
  obtain rfl := Option.some.inj he
  rfl

/-- A journal whose last entry is in a directory: the preserved tag is written into the
contents of the root directory. -/
theorem incrementalDocument_tag_in_directory :
    incrementalDocument sampleIncrement [⟨[[0x61], [0x66]], 3, .modify 2⟩] = some
      [.opened .index, .opened (.directory 0), .opened .contents,
        .opened (.directory 1), .opened .contents,
        .opened (.entry ⟨[[0x61], [0x66]], 3, .modify 2⟩), .closed,
        .closed, .closed, .wrote (.preserved 0), .closed, .closed, .closed] ∧
    ¬Nested sampleIncrement [⟨[[0x61], [0x66]], 3, .modify 2⟩]
      [.opened .index, .opened (.directory 0), .opened .contents,
        .opened (.directory 1), .opened .contents,
        .opened (.entry ⟨[[0x61], [0x66]], 3, .modify 2⟩), .closed,
        .closed, .closed, .wrote (.preserved 0), .closed, .closed, .closed] := by
  refine ⟨by decide +kernel, ?_⟩
  intro h
  have hkept := h.kept
  simp [Everywhere, Kept, Cursor.step, Cursor.start] at hkept

end AuroraLtfs.Incj
