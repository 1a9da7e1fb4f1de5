import AuroraLtfs.Incj.Entries
import AuroraLtfs.Lib.Runs

/-!
# The keys of the journal

A search of the journal is only well defined if no two entries have the same key.
`incj_modify` looks before it adds an entry, and `incj_rmdir` removes the entry it
would repeat.  `incj_create` does not look, and `incj_rmfile` adds a deletion where it
finds one: an object that is renamed away and back has two entries.
-/

namespace AuroraLtfs.Incj

open Fs

namespace Journal

def keys (j : Journal) : List (ℕ × Path) := j.entries.map JournalEntry.key

/-- No two entries have the same key. -/
def KeysUnique (j : Journal) : Prop := j.keys.Nodup

instance (j : Journal) : Decidable j.KeysUnique :=
  inferInstanceAs (Decidable j.keys.Nodup)

theorem keys_record (answers : Answers) (e : JournalEntry) (j : Journal) :
    (j.record answers e).keys = if answers.entry then j.keys ++ [e.key] else j.keys := by
  unfold record
  split <;> simp [keys, add, fail]

/-- A new entry keeps the keys unique if and only if its key is new. -/
theorem keysUnique_record_iff {answers : Answers} {e : JournalEntry} {j : Journal}
    (h : j.KeysUnique) :
    (j.record answers e).KeysUnique ↔ (answers.entry = true → e.key ∉ j.keys) := by
  rw [KeysUnique, keys_record]
  cases answers.entry with
  | false => exact iff_of_true h (by simp)
  | true =>
    rw [if_pos rfl, List.nodup_append_comm, List.singleton_append, List.nodup_cons]
    exact ⟨fun hboth _ => hboth.1, fun hnew => ⟨hnew rfl, h⟩⟩

theorem lookup_mem {bucket : ℕ} {key : ℕ × Path} {j : Journal} {e : JournalEntry}
    (h : j.lookup bucket key = some e) : e ∈ j.entries ∧ e.key = key := by
  have hmem := List.mem_of_getElem? h
  simpa using List.mem_filter.1 hmem

theorem lookup_eq_none_iff {bucket : ℕ} {key : ℕ × Path} {j : Journal} :
    j.lookup bucket key = none ↔ key ∉ j.keys := by
  unfold lookup keys
  rw [List.getElem?_eq_none_iff, List.mem_map]
  constructor
  · intro hle
    have hempty : (j.entries.filter fun e => e.key = key).length = 0 := by
      by_contra hne
      exact absurd (Nat.mod_lt bucket (Nat.pos_of_ne_zero hne)) (by omega)
    rintro ⟨e, hmem, hkey⟩
    have := List.filter_eq_nil_iff.1 (List.length_eq_zero_iff.1 hempty) e hmem
    simp [hkey] at this
  · intro hnone
    have hempty : j.entries.filter (fun e => e.key = key) = [] := by
      apply List.filter_eq_nil_iff.2
      intro e hmem
      simpa using fun hkey => hnone ⟨e, hmem, hkey⟩
    simp [hempty]

/-- Where keys are unique, what a search finds does not depend on the order of the
entries in their bucket. -/
theorem lookup_bucket {j : Journal} (h : j.KeysUnique) (key : ℕ × Path) (b b' : ℕ) :
    j.lookup b key = j.lookup b' key := by
  cases hfound : j.lookup b key with
  | none => exact (lookup_eq_none_iff.2 (lookup_eq_none_iff.1 hfound)).symm
  | some e =>
    obtain ⟨hmem, hkey⟩ := lookup_mem hfound
    cases hfound' : j.lookup b' key with
    | none =>
      exact absurd (hkey ▸ List.mem_map_of_mem hmem) (lookup_eq_none_iff.1 hfound')
    | some e' =>
      obtain ⟨hmem', hkey'⟩ := lookup_mem hfound'
      rw [List.inj_on_of_nodup_map h hmem hmem' (hkey.trans hkey'.symm)]

theorem keysUnique_of_sublist {es : List JournalEntry} {j : Journal} (h : j.KeysUnique)
    (hsub : es.Sublist j.entries) : { j with entries := es }.KeysUnique :=
  h.sublist (hsub.map _)

theorem map_key_replace (es : List JournalEntry) {e e' : JournalEntry}
    (hkey : e'.key = e.key) :
    (es.replace e e').map JournalEntry.key = es.map JournalEntry.key := by
  induction es with
  | nil => rfl
  | cons x es ih =>
    rw [List.replace_cons]
    by_cases heq : e = x
    · subst heq
      simp [hkey]
    · simp [beq_false_of_ne heq, ih]

end Journal

/-! ## One call -/

/-- A call of the journal, with what the dentry holds when it is made. -/
inductive Call
  | create (answers : Answers) (ppath : Path) (d : ℕ) (x : Dentry)
  | modify (answers : Answers) (path : Path) (d : ℕ) (x : Dentry)
  | rmfile (answers : Answers) (path : Path) (x : Dentry)
  | rmdir (answers : Answers) (path : Path) (x : Dentry)
  /-- `ltfs_set_dentry_dirty` cannot build the path of the dentry. -/
  | noPath
  | dump
  | clear

namespace Call

def exec : Call → Journal → Journal
  | .create answers ppath d x => incjCreate answers ppath d x
  | .modify answers path d x => incjModify answers path d x
  | .rmfile answers path x => incjRmfile answers path x
  | .rmdir answers path x => incjRmdir answers path x
  | .noPath => Journal.fail
  | .dump => incjDump
  | .clear => incjClear

/-- No entry under `path` and `uid` is added where there is one: the journal has been
given up, there is a created directory above, there is no memory, or the key is
new. -/
def AddsNew (answers : Answers) (above path : Path) (uid : ℕ) (j : Journal) : Prop :=
  j.journalErr = true ∨ j.covered above = true ∨ answers.entry = false ∨
    (uid, path) ∉ j.keys

/-- The call does not repeat a key.  A modification is only at risk without memory for
the search, a deletion also where it finds an earlier deletion. -/
def Admissible (j : Journal) : Call → Prop
  | .create answers ppath _ x => AddsNew answers ppath (ppath ++ [x.name]) x.uid j
  | .modify answers path _ x => answers.key = true ∨ AddsNew answers path path x.uid j
  | .rmfile answers path x =>
    (answers.key = true ∧ ∃ e ∈ j.entries, e.key = (x.uid, path) ∧
      e.reason.isDelete = false) ∨ AddsNew answers path path x.uid j
  | .rmdir _ _ _ | .noPath | .dump | .clear => True

end Call

section Steps

open Journal Call

variable {j : Journal} (answers : Answers) (path : Path)

theorem incjCreate_keysUnique_iff (ppath : Path) (d : ℕ) (x : Dentry) (h : j.KeysUnique) :
    (incjCreate answers ppath d x j).KeysUnique ↔
      AddsNew answers ppath (ppath ++ [x.name]) x.uid j := by
  unfold incjCreate AddsNew
  cases j.journalErr with
  | true => simpa using h
  | false =>
    cases j.covered ppath with
    | true => simpa using h
    | false =>
      have hrecord := @keysUnique_record_iff answers
        ⟨ppath ++ [x.name], x.uid, .create d⟩ j h
      have hentries : ∀ dirs : List Path, { j.record answers
          ⟨ppath ++ [x.name], x.uid, .create d⟩ with createdDirs := dirs }.KeysUnique ↔
          (j.record answers ⟨ppath ++ [x.name], x.uid, .create d⟩).KeysUnique :=
        fun _ => Iff.rfl
      simp only [Bool.or_false, Bool.false_eq_true, if_false, false_or]
      rw [← Bool.not_eq_true, ← imp_iff_not_or]
      split
      · rw [hentries]
        exact hrecord
      · exact hrecord

/-- The step of `incj_modify` and `incj_rmfile` that adds an entry under the key that
was searched for, after a search that may have given the journal up. -/
theorem record_keysUnique_iff (uid : ℕ) (reason : JournalReason) (h : j.KeysUnique)
    (herr : j.journalErr = false) {t : Journal} (ht : t = j ∨ t = j.fail) :
    (if t.covered path then t else t.record answers ⟨path, uid, reason⟩).KeysUnique ↔
      AddsNew answers path path uid j := by
  have hcovered : t.covered path = j.covered path := by
    obtain rfl | rfl := ht <;> rfl
  have hkeys : t.keys = j.keys := by
    obtain rfl | rfl := ht <;> rfl
  have hunique : t.KeysUnique := by
    rw [KeysUnique, hkeys]
    exact h
  unfold AddsNew
  rw [herr, hcovered]
  cases j.covered path with
  | true => simpa using hunique
  | false =>
    simp only [Bool.false_eq_true, if_false, false_or]
    rw [keysUnique_record_iff hunique, hkeys, ← Bool.not_eq_true, ← imp_iff_not_or]
    rfl

theorem incjModify_keysUnique_iff (d : ℕ) (x : Dentry) (h : j.KeysUnique) :
    (incjModify answers path d x j).KeysUnique ↔
      answers.key = true ∨ AddsNew answers path path x.uid j := by
  unfold incjModify
  cases herr : j.journalErr with
  | true => simpa [AddsNew, herr] using h
  | false =>
    rw [if_neg Bool.false_ne_true, findJentry]
    cases answers.key with
    | false =>
      simp only [Bool.false_eq_true, if_false, false_or]
      exact record_keysUnique_iff answers path x.uid (.modify d) h herr (.inr rfl)
    | true =>
      simp only [if_true, true_or, iff_true]
      cases hfound : j.lookup answers.bucket (x.uid, path) with
      | some e => exact h
      | none =>
        have hnew := lookup_eq_none_iff.1 hfound
        apply (record_keysUnique_iff answers path x.uid (.modify d) h herr (.inl rfl)).2
        exact .inr (.inr (.inr hnew))

theorem incjRmfile_keysUnique_iff (x : Dentry) (h : j.KeysUnique) :
    (incjRmfile answers path x j).KeysUnique ↔
      (answers.key = true ∧ ∃ e ∈ j.entries, e.key = (x.uid, path) ∧
        e.reason.isDelete = false) ∨ AddsNew answers path path x.uid j := by
  unfold incjRmfile
  cases herr : j.journalErr with
  | true => simpa [AddsNew, herr] using h
  | false =>
    rw [if_neg Bool.false_ne_true, findJentry]
    have hrecord := fun t ht => record_keysUnique_iff answers path x.uid
      (.deleteFile (deletedName path)) h herr (t := t) ht
    cases answers.key with
    | false =>
      simp only [Bool.false_eq_true, if_false, false_and, false_or]
      exact hrecord j.fail (.inr rfl)
    | true =>
      simp only [if_true, true_and]
      cases hfound : j.lookup answers.bucket (x.uid, path) with
      | none =>
        have hnew := lookup_eq_none_iff.1 hfound
        apply iff_of_true
        · exact (hrecord j (.inl rfl)).2 (.inr (.inr (.inr hnew)))
        · exact .inr (.inr (.inr (.inr hnew)))
      | some e =>
        obtain ⟨hmem, hkey⟩ := lookup_mem hfound
        -- Keys are unique, so that `e` is the only entry the condition can be about.
        have honly : (∃ e ∈ j.entries, e.key = (x.uid, path) ∧
            e.reason.isDelete = false) ↔ e.reason.isDelete = false := by
          constructor
          · rintro ⟨e', hmem', hkey', hlive⟩
            rwa [List.inj_on_of_nodup_map h hmem hmem' (hkey.trans hkey'.symm)]
          · exact fun hlive => ⟨e, hmem, hkey, hlive⟩
        rw [honly]
        dsimp only
        cases e.reason with
        | create d =>
          exact iff_of_true (keysUnique_of_sublist h List.erase_sublist) (.inl rfl)
        | modify d =>
          apply iff_of_true _ (.inl rfl)
          dsimp only
          split
          · rw [KeysUnique, keys, map_key_replace]
            · exact h
            · rfl
          · exact h
        | deleteFile name | deleteDirectory name =>
          simp only [JournalReason.isDelete, Bool.true_eq_false, false_or]
          exact hrecord j (.inl rfl)

theorem incjRmdir_keysUnique (x : Dentry) (h : j.KeysUnique) :
    (incjRmdir answers path x j).KeysUnique := by
  unfold incjRmdir
  split
  · exact h
  · obtain ⟨kept, created, below⟩ := sweepCreated path j.createdDirs
    have hfilter : { j with
        entries := j.entries.filter (survives path x.uid), createdDirs := kept }.KeysUnique :=
      keysUnique_of_sublist h List.filter_sublist
    dsimp only
    split
    · exact h
    · split
      · exact hfilter
      · apply (keysUnique_record_iff hfilter).2
        intro _ hmem
        obtain ⟨e, he, hkey⟩ := List.mem_map.1 hmem
        obtain ⟨huid, hpath⟩ := Prod.mk.inj hkey
        have hsurvives := (List.mem_filter.1 he).2
        simp [survives, huid, hpath] at hsurvives

/-- One call keeps the keys unique if and only if it is admissible. -/
theorem Call.exec_keysUnique_iff (call : Call) (j : Journal) (h : j.KeysUnique) :
    (call.exec j).KeysUnique ↔ call.Admissible j := by
  cases call with
  | create answers ppath d x => exact incjCreate_keysUnique_iff answers ppath d x h
  | modify answers path d x => exact incjModify_keysUnique_iff answers path d x h
  | rmfile answers path x => exact incjRmfile_keysUnique_iff answers path x h
  | rmdir answers path x =>
    exact iff_of_true (incjRmdir_keysUnique answers path x h) trivial
  | noPath => exact iff_of_true h trivial
  | dump | clear => exact iff_of_true List.nodup_nil trivial

end Steps

/-- From an empty journal, through any calls: the keys are unique after every call, and
what a search finds is the same in every order of the buckets, if and only if every
call is admissible where it is made. -/
theorem journal_keysUnique_iff (calls : List Call) :
    (∀ n, (runSteps Call.exec (calls.take n) {}).KeysUnique ∧
      ∀ key b b', (runSteps Call.exec (calls.take n) {}).lookup b key =
        (runSteps Call.exec (calls.take n) {}).lookup b' key) ↔
      ∀ before call after, calls = before ++ call :: after →
        call.Admissible (runSteps Call.exec before {}) := by
  have hrun := runSteps_invariant_iff (fun call j => call.exec_keysUnique_iff j) calls
    (s := {}) List.nodup_nil
  rw [← hrun]
  constructor
  · exact fun h n => (h n).1
  · exact fun h n => ⟨h n, Journal.lookup_bucket (h n)⟩

/-- The calls of `ltfs_fsops_rename` for a dentry that takes no other's place: its old
path is a deletion, its new one a creation.  The modifications of the two directories
that follow are left out: they are entries under the keys of the directories. -/
def renameCalls (source target : Path) (d : ℕ) (x : Dentry) : List Call :=
  [if x.isdir then .rmdir {} source x else .rmfile {} source x,
    .create {} target.dropLast d { x with name := target.getLastD [] }]

/-- A file that is renamed away and back is in the journal twice, as deleted and as
created; a later search finds the one or the other. -/
theorem journal_renamed_back :
    (runSteps Call.exec
        (renameCalls [[0x61]] [[0x62]] 1 { uid := 7 } ++
          renameCalls [[0x62]] [[0x61]] 1 { uid := 7 }) {}).entries =
      [⟨[[0x61]], 7, .deleteFile [0x61]⟩, ⟨[[0x61]], 7, .create 1⟩] ∧
    ¬(runSteps Call.exec
        (renameCalls [[0x61]] [[0x62]] 1 { uid := 7 } ++
          renameCalls [[0x62]] [[0x61]] 1 { uid := 7 }) {}).KeysUnique := by
  decide

end AuroraLtfs.Incj
