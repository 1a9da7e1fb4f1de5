import AuroraLtfs.Incj.Nesting
import AuroraLtfs.Index.Frame

/-!
# What the index writer reports

`xml_schema_to_tape` returns the error the output has kept, and otherwise the result
of writing the file mark; the status of the document is only logged.  An entry that
cannot be written because of the output is reported.  One that fails within the
writer, for want of memory or because its text cannot be encoded, is lost: the
document has fewer entries than the journal, and is reported as written.
-/

namespace AuroraLtfs.Incj

open Fs WriterCall TextWriter

inductive IndexWriteError
  | noMemory
  | output
  | filemark
  deriving DecidableEq, Repr

/-- How the calls around the document fare: the allocation of the creator string, the
flush of the output when it is closed, the file mark, and the copy of the creator. -/
structure TapeAnswers where
  creator : Bool := true
  closed : Bool := true
  filemark : Bool := true
  duplicated : Bool := true

/-- What is reported, and what has been written. -/
structure Report where
  ret : Except IndexWriteError Unit
  document : List IncEvent
  entries : List JournalEntry
  deriving DecidableEq

section Reports

variable (inc : Increment) (faults late : ℕ → Option Fault)

/-- `xml_schema_to_tape`, for an incremental index: the calls of the XML writer, with
answers in the place of the drive.  `Index.xmlSchemaToTape` has the drive and the blocks
the calls come to; `xmlSchemaToTape_agrees` joins the two. -/
def xmlSchemaToTape (answers : TapeAnswers) (entries : List JournalEntry) : Option Report :=
  if answers.creator then
    (xmlWriteIncrementalSchema inc faults late entries).map fun r =>
      let ret := if Fault.output ∈ r.writer.faulted ∨ answers.closed = false then
          .error .output
        else if answers.filemark then .ok () else .error .filemark
      ⟨if answers.duplicated then ret else .error .noMemory, r.writer.document, r.entries⟩
  else some ⟨.error .noMemory, [], []⟩

/-- The calls for the entries, as far as their parents are found. -/
def Increment.entriesScript : ℕ → List ℕ → List JournalEntry → List IncCall
  | _, _, [] => []
  | n, cur, e :: es =>
    match inc.entryScript n cur e with
    | none => []
    | some (calls, new) => calls ++ entriesScript (n + calls.length) new es

/-- The calls before the first entry. -/
def Increment.head : List IncCall := inc.opening ++ inc.openRoot inc.opening.length

/-- All calls up to the last entry. -/
def Increment.script (entries : List JournalEntry) : List IncCall :=
  inc.head ++ inc.entriesScript inc.head.length [] entries

end Reports

/-! ## Elements of entries -/

theorem entryElements_of_forall {cs : List IncCall} (h : ∀ e, .start (.entry e) ∉ cs) :
    entryElements (document cs) = [] := by
  apply List.filterMap_eq_nil_iff.2
  intro ev hev
  obtain ⟨call, hcall, hev⟩ := List.mem_flatMap.1 hev
  cases call with
  | start tag =>
    cases tag with
    | entry e => exact absurd hcall (h e)
    | _ =>
      rw [List.mem_singleton.1 hev]
  | stop => rw [List.mem_singleton.1 hev]
  | leaf item => rw [List.mem_singleton.1 hev]
  | check => cases hev

/-- A script without an entry writes none, wherever it ends. -/
theorem entryElements_perform (faults : ℕ → Option Fault) {cs : List IncCall}
    (h : ∀ e, .start (.entry e) ∉ cs) (w : IncWriter) :
    entryElements (w.perform faults cs).2.document = entryElements w.document := by
  obtain ⟨k, hk⟩ := perform_document faults cs w
  rw [hk, entryElements_append, entryElements_of_forall, List.append_nil]
  exact fun e he => h e (List.mem_of_mem_take he)

theorem not_entry_script (piece : Piece) (e : JournalEntry) :
    .start (.entry e) ∉ piece.script := by
  intro h
  obtain ⟨call, -, heq⟩ := List.mem_map.1 h
  cases call <;> cases heq

theorem not_entry_openDir (inc : Increment) (n d : ℕ) (e : JournalEntry) :
    .start (.entry e) ∉ inc.openDir n d := by
  simp [Increment.openDir, not_entry_script]

theorem entryElements_finish {faults : ℕ → Option Fault} (w : IncWriter) :
    entryElements (w.finish faults).2.document = entryElements w.document := by
  rw [finish]
  split
  · rfl
  · simp [entryElements_closed]

/-! ## The loop, with faults -/

section Loop

variable {inc : Increment} {faults : ℕ → Option Fault} {p q : Progress}
  {entries : List JournalEntry}

/-- Without a fault all entries are written, if the loop comes to its end. -/
theorem writeEntries_of_none (hfailed : p.failed = false)
    (hstack : p.writer.stack = inside p.parent)
    (hnone : firstFault faults p.writer.calls
      (inc.entriesScript p.writer.calls p.parent entries).length = none)
    (h : writeEntries inc faults entries p = some q) :
    q.written = p.written ++ entries ∧
      entryElements q.writer.document = entryElements p.writer.document ++ entries := by
  induction entries generalizing p with
  | nil =>
    cases h
    simp
  | cons e es ih =>
    rw [writeEntries] at h
    rw [Increment.entriesScript] at hnone
    cases hscript : inc.entryScript p.writer.calls p.parent e with
    | none =>
      rw [writeEntry_crash hfailed hscript] at h
      cases h
    | some script =>
      obtain ⟨calls, new⟩ := script
      simp only [hscript, List.length_append, firstFault_add, Option.or_eq_none_iff] at hnone
      rw [writeEntry_of_none hfailed hstack hscript hnone.1, Option.bind_some] at h
      have hreach := inc.reach_entryScript hscript
      obtain ⟨hwritten, helements⟩ := ih rfl
        (after_stack (by rw [hstack]; exact hreach)) hnone.2 h
      rw [hwritten, helements]
      simp [after, entryElements_entryScript hscript]

/-- The first fault ends the output of entries, and is put on record. -/
theorem writeEntries_of_some {f : Fault} (hfailed : p.failed = false)
    (hstack : p.writer.stack = inside p.parent)
    (hsome : firstFault faults p.writer.calls
      (inc.entriesScript p.writer.calls p.parent entries).length = some f) :
    ∃ q, writeEntries inc faults entries p = some q ∧
      q.written.length < p.written.length + entries.length ∧
      q.writer.faulted = p.writer.faulted ++ [f] := by
  induction entries generalizing p with
  | nil => simp [Increment.entriesScript, firstFault] at hsome
  | cons e es ih =>
    rw [Increment.entriesScript] at hsome
    cases hscript : inc.entryScript p.writer.calls p.parent e with
    | none => simp [hscript, firstFault] at hsome
    | some script =>
      obtain ⟨calls, new⟩ := script
      simp only [hscript, List.length_append, firstFault_add] at hsome
      rw [writeEntries]
      cases hfirst : firstFault faults p.writer.calls calls.length with
      | some g =>
        obtain rfl : g = f := by simpa [hfirst] using hsome
        obtain ⟨w, hfaulted, hwrite⟩ := writeEntry_of_some hfailed hstack hscript hfirst
        rw [hwrite, Option.bind_some, writeEntries_failed es rfl]
        exact ⟨_, rfl, by simp, hfaulted⟩
      | none =>
        rw [hfirst, Option.none_or] at hsome
        rw [writeEntry_of_none hfailed hstack hscript hfirst, Option.bind_some]
        have hreach := inc.reach_entryScript hscript
        obtain ⟨q, hq, hlength, hfaulted⟩ := @ih
          ⟨false, new, p.writer.after calls, p.written ++ [e]⟩ rfl
          (after_stack (by rw [hstack]; exact hreach)) hsome
        refine ⟨q, hq, ?_, hfaulted⟩
        simpa [Nat.add_assoc, Nat.add_comm 1] using hlength

end Loop

/-! ## The calls after the loop -/

section Late

variable {inc : Increment} {late : ℕ → Option Fault}

theorem not_entry_closing (e : JournalEntry) : .start (.entry e) ∉ inc.closing := by
  simp [Increment.closing]

/-- What the calls after the loop preserve. -/
theorem late_preserves {Q : IncWriter → Prop}
    (hclose : ∀ w, Q w → Q (w.perform late closeRoot).2)
    (hclosing : ∀ w, Q w → Q (w.perform late inc.closing).2)
    (hfinish : ∀ w, Q w → Q (w.finish late).2) {p : Progress} (h : Q p.writer) :
    Q (xmlEndSchema inc late (xmlCloseJournal late p)).writer := by
  have hroot : Q (xmlCloseJournal late p).writer := hclose p.writer h
  generalize xmlCloseJournal late p = r at hroot ⊢
  have hclosed := hclosing r.writer hroot
  rw [xmlEndSchema]
  split
  · generalize r.writer.perform late inc.closing = closed at hclosed ⊢
    obtain ⟨_ | _, w⟩ := closed
    · exact hclosed
    · exact hfinish w hclosed
  · exact hroot

theorem late_entries (p : Progress) :
    (xmlEndSchema inc late (xmlCloseJournal late p)).entries = p.written := by
  rw [xmlEndSchema]
  split
  · generalize (xmlCloseJournal late p).writer.perform late inc.closing = closed
    obtain ⟨_ | _, w⟩ := closed <;> rfl
  · rfl

theorem entryElements_late {p : Progress} {es : List JournalEntry}
    (h : entryElements p.writer.document = es) :
    entryElements (xmlEndSchema inc late (xmlCloseJournal late p)).writer.document = es := by
  apply late_preserves (Q := fun w => entryElements w.document = es) _ _ _ h
  · intro w hw
    rw [entryElements_perform late (by simp [closeRoot]), hw]
  · intro w hw
    rw [entryElements_perform late not_entry_closing, hw]
  · intro w hw
    rw [entryElements_finish, hw]

theorem faulted_late {f : Fault} {p : Progress} (h : f ∈ p.writer.faulted) :
    f ∈ (xmlEndSchema inc late (xmlCloseJournal late p)).writer.faulted :=
  late_preserves (Q := fun w => f ∈ w.faulted) (fun _ => faulted_perform _)
    (fun _ => faulted_perform _) (fun _ => faulted_finish) h

theorem faulted_late_none {fs : List Fault} {p : Progress} (h : p.writer.faulted = fs) :
    (xmlEndSchema inc (fun _ => none)
      (xmlCloseJournal (fun _ => none) p)).writer.faulted = fs :=
  late_preserves (Q := fun w => w.faulted = fs)
    (fun w hw => (faulted_perform_none _ w).trans hw)
    (fun w hw => (faulted_perform_none _ w).trans hw)
    (fun w hw => (faulted_finish_none w).trans hw) h

end Late

/-! ## The whole document -/

section Schema

variable {inc : Increment} {faults late : ℕ → Option Fault} {entries : List JournalEntry}

/-- Without a fault before the first entry, all depends on the loop. -/
theorem schema_of_none (hnone : firstFault faults 0 inc.head.length = none) :
    xmlWriteIncrementalSchema inc faults late entries =
      (writeEntries inc faults entries (atRoot inc)).map fun p =>
        xmlEndSchema inc late (xmlCloseJournal late p) := by
  rw [Increment.head, List.length_append, firstFault_add, Option.or_eq_none_iff] at hnone
  have hopening := perform_opening inc hnone.1
  have hcalls : (TextWriter.fresh.after inc.opening : IncWriter).calls =
      0 + inc.opening.length := rfl
  have hroot : (TextWriter.fresh.after inc.opening).perform faults
      (inc.openRoot (TextWriter.fresh.after inc.opening : IncWriter).calls) =
      (true, (atRoot inc).writer) := by
    apply perform_of_none (reach_root inc)
    rw [hcalls, Nat.zero_add]
    simpa using hnone.2
  rw [xmlWriteIncrementalSchema, hopening]
  dsimp only
  rw [xmlWriteIncJournal, hroot]
  simp only [Option.map_map]
  rfl

/-- A fault before the first entry leaves a document without entries. -/
theorem schema_of_some {f : Fault} (hsome : firstFault faults 0 inc.head.length = some f) :
    ∃ r, xmlWriteIncrementalSchema inc faults late entries = some r ∧ r.entries = [] ∧
      r.writer.faulted = [f] := by
  rw [Increment.head, List.length_append, firstFault_add] at hsome
  rw [xmlWriteIncrementalSchema]
  cases hfirst : firstFault faults 0 inc.opening.length with
  | some g =>
    obtain rfl : g = f := by simpa [hfirst] using hsome
    obtain ⟨hfalse, hfaulted⟩ :=
      @perform_of_some _ _ _ faults g inc.opening TextWriter.fresh _ inc.reach_opening hfirst
    generalize TextWriter.fresh.perform faults inc.opening = opened at hfalse hfaulted ⊢
    obtain ⟨ok, w⟩ := opened
    cases hfalse
    exact ⟨_, rfl, rfl, hfaulted⟩
  | none =>
    rw [hfirst, Option.none_or] at hsome
    rw [perform_opening inc hfirst]
    have hcalls : (TextWriter.fresh.after inc.opening : IncWriter).calls =
        inc.opening.length := Nat.zero_add _
    obtain ⟨hfalse, hfaulted⟩ := perform_of_some (reach_root inc)
      (by rw [hcalls, ← Nat.zero_add inc.opening.length]; simpa using hsome)
    dsimp only
    rw [xmlWriteIncJournal]
    generalize (TextWriter.fresh.after inc.opening).perform faults
      (inc.openRoot (TextWriter.fresh.after inc.opening : IncWriter).calls) = opened
      at hfalse hfaulted ⊢
    obtain ⟨ok, w⟩ := opened
    cases hfalse
    exact ⟨_, rfl, rfl, hfaulted⟩

theorem firstFault_script : firstFault faults 0 (inc.script entries).length =
    (firstFault faults 0 inc.head.length).or (firstFault faults (atRoot inc).writer.calls
      (inc.entriesScript (atRoot inc).writer.calls (atRoot inc).parent entries).length) := by
  have hcalls : (atRoot inc).writer.calls = inc.head.length := by
    simp [atRoot, after, TextWriter.fresh, Increment.head]
  rw [Increment.script, List.length_append, firstFault_add, Nat.zero_add, hcalls]
  rfl

/-- Without a fault up to the last entry the document is complete. -/
theorem schema_noFault {r : Written}
    (hnone : firstFault faults 0 (inc.script entries).length = none)
    (h : xmlWriteIncrementalSchema inc faults late entries = some r) :
    r.entries = entries ∧ entryElements r.writer.document = entries := by
  rw [firstFault_script, Option.or_eq_none_iff] at hnone
  rw [schema_of_none hnone.1] at h
  obtain ⟨q, hq, rfl⟩ := Option.map_eq_some_iff.1 h
  obtain ⟨hwritten, helements⟩ := writeEntries_of_none rfl (atRoot_stack inc) hnone.2 hq
  rw [(tidy_atRoot inc).2.1] at helements
  exact ⟨(late_entries q).trans hwritten, entryElements_late helements⟩

/-- The first fault up to the last entry is put on record, and leaves an entry out. -/
theorem schema_fault {f : Fault} (late : ℕ → Option Fault)
    (hsome : firstFault faults 0 (inc.script entries).length = some f) :
    ∃ r, xmlWriteIncrementalSchema inc faults late entries = some r ∧
      f ∈ r.writer.faulted ∧ (entries ≠ [] → r.entries.length < entries.length) ∧
      (late = (fun _ => none) → r.writer.faulted = [f]) := by
  rw [firstFault_script] at hsome
  cases hfirst : firstFault faults 0 inc.head.length with
  | some g =>
    obtain rfl : g = f := by simpa [hfirst] using hsome
    obtain ⟨r, hr, hentries, hfaulted⟩ := schema_of_some hfirst
    refine ⟨r, hr, by simp [hfaulted], ?_, fun _ => hfaulted⟩
    rw [hentries]
    exact List.length_pos_of_ne_nil
  | none =>
    rw [hfirst, Option.none_or] at hsome
    obtain ⟨q, hq, hlength, hfaulted⟩ := writeEntries_of_some rfl (atRoot_stack inc) hsome
    have hrecord : q.writer.faulted = [f] := hfaulted
    refine ⟨xmlEndSchema inc late (xmlCloseJournal late q), ?_,
      faulted_late (by simp [hrecord]), ?_, ?_⟩
    · rw [schema_of_none hfirst, hq]
      rfl
    · intro _
      rw [late_entries]
      simpa [atRoot] using hlength
    · rintro rfl
      exact faulted_late_none hrecord

/-- The document of an empty journal has no entries. -/
theorem schema_nil {r : Written} (h : xmlWriteIncrementalSchema inc faults late [] = some r) :
    r.entries = [] ∧ entryElements r.writer.document = [] := by
  have hopening : ∀ e, .start (.entry e) ∉ inc.opening := by
    simp [Increment.opening, not_entry_script]
  have hroot : ∀ n e, .start (.entry e) ∉ inc.openRoot n := by
    simp [Increment.openRoot, not_entry_openDir]
  have helements := entryElements_perform faults hopening TextWriter.fresh
  rw [xmlWriteIncrementalSchema] at h
  generalize TextWriter.fresh.perform faults inc.opening = opened at helements h
  obtain ⟨_ | _, w⟩ := opened
  · cases h
    exact ⟨rfl, helements⟩
  · dsimp only at h helements
    have hopened := entryElements_perform faults (hroot w.calls) w
    rw [xmlWriteIncJournal] at h
    generalize w.perform faults (inc.openRoot w.calls) = opened at hopened h
    obtain ⟨_ | _, v⟩ := opened
    · cases h
      exact ⟨rfl, hopened.trans helements⟩
    · cases h
      exact ⟨late_entries _, entryElements_late (hopened.trans helements)⟩

end Schema

/-- All entries are written to their end, and the document has their elements. -/
def Report.Complete (r : Report) (entries : List JournalEntry) : Prop :=
  r.entries = entries ∧ entryElements r.document = entries

section Complete

variable {inc : Increment} {faults late : ℕ → Option Fault} {answers : TapeAnswers}
  {entries : List JournalEntry} {report : Report}

/-- A report of success is about a document none of whose calls met a fault of the
output. -/
theorem xmlSchemaToTape_ok (h : xmlSchemaToTape inc faults late answers entries = some report)
    (hok : report.ret = .ok ()) :
    ∃ r, xmlWriteIncrementalSchema inc faults late entries = some r ∧
      Fault.output ∉ r.writer.faulted ∧ report.document = r.writer.document ∧
      report.entries = r.entries := by
  rw [xmlSchemaToTape] at h
  split at h
  · obtain ⟨r, hr, rfl⟩ := Option.map_eq_some_iff.1 h
    refine ⟨r, hr, ?_, rfl, rfl⟩
    intro houtput
    cases hduplicated : answers.duplicated with
    | false => simp [hduplicated] at hok
    | true => simp [hduplicated, houtput] at hok
  · cases h
    cases hok

/-- For every journal and all faults of the calls up to its last entry: whatever
becomes of the calls after it and of the file mark, a report of success is about the
complete journal, if and only if the journal is empty or the first fault, if there is
one, is a fault of the output. -/
theorem xmlSchemaToTape_complete_iff (inc : Increment) (faults : ℕ → Option Fault)
    (entries : List JournalEntry) :
    (∀ late answers report, xmlSchemaToTape inc faults late answers entries = some report →
        report.ret = .ok () → report.Complete entries) ↔
      entries = [] ∨
        firstFault faults 0 (inc.script entries).length ≠ some .internal := by
  constructor
  · intro hall
    by_contra hnot
    obtain ⟨hne, hinternal⟩ := not_or.1 hnot
    obtain ⟨r, hr, -, hlength, hfaulted⟩ := schema_fault (fun _ => none) (not_not.1 hinternal)
    have hreport := hall (fun _ => none) {} ⟨.ok (), r.writer.document, r.entries⟩
      (by simp [xmlSchemaToTape, hr, hfaulted rfl]) rfl
    exact absurd (congrArg List.length hreport.1) (hlength hne).ne
  · intro hcond late answers report h hok
    obtain ⟨r, hr, hclean, hdocument, hentries⟩ := xmlSchemaToTape_ok h hok
    rw [Report.Complete, hdocument, hentries]
    obtain rfl | hcond := hcond
    · exact schema_nil hr
    · cases hfault : firstFault faults 0 (inc.script entries).length with
      | none => exact schema_noFault hfault hr
      | some f =>
        cases f with
        | internal => exact absurd hfault hcond
        | output =>
          obtain ⟨r', hr', hmem, -⟩ := schema_fault late hfault
          rw [hr] at hr'
          cases hr'
          exact absurd hmem hclean

end Complete

/-- There is no memory for the path helper of the only entry, which is the seventh call:
the index is reported as written, without the entry. -/
theorem xmlSchemaToTape_loses_entry :
    xmlSchemaToTape sampleIncrement (fun n => if n = 6 then some .internal else none)
        (fun _ => none) {} [⟨[[0x61], [0x66]], 3, .modify 2⟩] =
      some ⟨.ok (), [.opened .index, .opened (.directory 0), .opened .contents, .closed,
        .closed, .wrote (.preserved 0), .closed], []⟩ ∧
    ¬Report.Complete ⟨.ok (), [.opened .index, .opened (.directory 0), .opened .contents,
        .closed, .closed, .wrote (.preserved 0), .closed], []⟩
      [⟨[[0x61], [0x66]], 3, .modify 2⟩] := by
  refine ⟨by decide +kernel, ?_⟩
  intro h
  cases h.1

/-! ## On the tape -/

section OnTape

variable {σ π : Type*} (C : Index.Catalog σ π) (reason : Index.SyncReason)
  (v : Index.Volume σ π)

/-- How the calls around the document of a volume fare. -/
def tapeAnswers : TapeAnswers where
  closed := (Index.xmlOutput (Index.document C .incremental v) (0, v)).1.isOk
  filemark := (Index.xmlSchemaToTape C reason .incremental v).1.isOk

theorem filemark_eq_true_iff : (tapeAnswers C reason v).filemark = true ↔
    (Index.xmlSchemaToTape C reason .incremental v).1 = .ok () := by
  rw [tapeAnswers]
  cases (Index.xmlSchemaToTape C reason .incremental v).1 with
  | error e => exact iff_of_false Bool.false_ne_true (by rintro ⟨⟩)
  | ok a => exact iff_of_true rfl rfl

/-- A block that cannot be written is the result of the whole call. -/
theorem closed_of_filemark (h : (tapeAnswers C reason v).filemark = true) :
    (tapeAnswers C reason v).closed = true := by
  rw [filemark_eq_true_iff, Index.xmlSchemaToTape] at h
  rw [tapeAnswers]
  rcases hout : Index.xmlOutput (Index.document C .incremental v) (0, v) with ⟨_ | _, s⟩
  · rw [hout] at h
    cases h
  · rfl

/-- The index writer with the drive reports what the one with the calls reports, where a
fault of the output is a block that could not be written.  What it puts on the tape is the
document of the report, whether the writer came to its end or gave it up. -/
theorem xmlSchemaToTape_agrees {inc : Increment} {faults late : ℕ → Option Fault}
    {entries : List JournalEntry} {report : Report} {pack : List IncEvent → List π}
    (h : xmlSchemaToTape inc faults late (tapeAnswers C reason v) entries = some report)
    (houtput : ∀ r, xmlWriteIncrementalSchema inc faults late entries = some r →
      Fault.output ∈ r.writer.faulted → (tapeAnswers C reason v).closed = false)
    (hpack : C.incSchema v.header v.tree = pack report.document) (p : Tape.Part) :
    (report.ret = .ok () ↔ (Index.xmlSchemaToTape C reason .incremental v).1 = .ok ()) ∧
      Index.RecordsAt p (Tape.blocks (pack report.document) ++ [.filemark]) v
        (Index.xmlSchemaToTape C reason .incremental v) := by
  have hrecords := @Index.xmlSchemaToTape_recordsAt _ _ C p v reason .incremental
  rw [Index.document, hpack] at hrecords
  refine ⟨?_, hrecords⟩
  have hcreator : (tapeAnswers C reason v).creator = true := rfl
  have hduplicated : (tapeAnswers C reason v).duplicated = true := rfl
  rw [xmlSchemaToTape, if_pos hcreator] at h
  obtain ⟨r, hr, rfl⟩ := Option.map_eq_some_iff.1 h
  dsimp only
  rw [if_pos hduplicated, ← filemark_eq_true_iff]
  constructor
  · intro hok
    by_contra hmark
    rw [if_neg hmark] at hok
    split at hok <;> cases hok
  · intro hmark
    have hclosed := closed_of_filemark C reason v hmark
    have hclean : Fault.output ∉ r.writer.faulted := by
      intro hmem
      rw [houtput r hr hmem] at hclosed
      cases hclosed
    rw [if_neg (by simp [hclean, hclosed]), if_pos hmark]

end OnTape

end AuroraLtfs.Incj
