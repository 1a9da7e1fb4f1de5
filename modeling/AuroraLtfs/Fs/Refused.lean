import AuroraLtfs.Fs.Handles
import AuroraLtfs.Fs.Namespace

/-!
# Calls on a volume that may not be changed

`ltfs_get_volume_readonly` answers a read-only mount with `-LTFS_RDONLY_VOLUME`.
Every call that would change the tree then fails, and whatever a call does, to
the dentries it does no more than take and give back references.
-/

namespace AuroraLtfs.Fs

variable {base : ℕ → ℕ} {refs : List ℕ} {s t u : LtfsIndex} {env : Env}
  {call : ℕ → LtfsIndex → LtfsIndex}

/-- Only references have been taken and given back; `refs` are still held. -/
structure Idles (refs : List ℕ) (s t : LtfsIndex) : Prop where
  frame : Frame s t
  counted : ∃ base, Counted base refs t

theorem Idles.of_counted (hc : Counted base refs s) : Idles refs s s :=
  ⟨Frame.refl s, base, hc⟩

theorem Idles.trans {refs' : List ℕ} (hst : Idles refs s t) (htu : Idles refs' t u) :
    Idles refs' s u :=
  ⟨hst.frame.trans htu.frame, htu.counted⟩

theorem Idles.wellKept {σ : Session} (hσ : WellKept σ) (h : Idles refs σ.fs t) :
    WellKept ⟨t, refs⟩ :=
  ⟨hσ.sound.frame h.frame, h.counted⟩

/-- A forgotten reference stays with its dentry. -/
theorem Idles.forget {d : ℕ} (h : Idles (d :: refs) s t) : Idles refs s t := by
  obtain ⟨base, hc⟩ := h.counted
  have hleak : Counted base ([d] ++ refs) t := hc
  exact ⟨h.frame, _, hleak.leakAll⟩

theorem Idles.release {d : ℕ} (hs : Tree s) (h : Idles (d :: refs) s t) :
    Idles refs s (fsReleaseDentry d t) := by
  obtain ⟨base, hc⟩ := h.counted
  have hrel := fsReleaseDentry_spec (hs.frame h.frame).gone hc
  exact ⟨h.frame.trans hrel.frame, base, hrel.counted⟩

/-! ## Opening and closing for reading -/

theorem ltfsFsopsClose_idles {d : ℕ} (useIosched : Bool) (hio : env.iosched = true)
    (hs : Tree s) (h : Idles (d :: refs) s t) :
    Idles refs s (ltfsFsopsClose env d false false useIosched {} t).2 := by
  have hstate : (ltfsFsopsClose env d false false useIosched {} t).2 =
      fsReleaseDentry d t := by
    unfold ltfsFsopsClose
    simp [hio]
  rw [hstate]
  exact h.release hs

theorem ltfsFsopsGetattrPath_idles (env : Env) (path : Except FsError Path)
    (hs : Tree s) (hc : Counted base refs s) :
    Idles refs s (ltfsFsopsGetattrPath env path s).2 := by
  have hopen := ltfsFsopsOpen_read env path false {} hs hc
  rw [ltfsFsopsGetattrPath]
  generalize ltfsFsopsOpen env path false false {} s = r at hopen ⊢
  cases hopen with
  | failed e t _ ht hct => exact ⟨ht, base, hct⟩
  | found d t _ hio _ ht hct =>
    dsimp only
    rw [ltfsFsopsGetattr_state]
    exact ltfsFsopsClose_idles false hio hs ⟨ht, base, hct⟩

theorem ltfsFsopsReadlinkPath_idles (env : Env) (path : Except FsError Path)
    (buf : LinkBuffer) (hs : Tree s) (hc : Counted base refs s) :
    Idles refs s (ltfsFsopsReadlinkPath env path buf s).2 := by
  have hopen := ltfsFsopsOpen_read env path true {} hs hc
  rw [ltfsFsopsReadlinkPath]
  split
  · revert hopen
    generalize ltfsFsopsOpen env path false true {} s = r
    intro hopen
    cases hopen with
    | failed e t _ ht hct => exact ⟨ht, base, hct⟩
    | found d t _ hio _ ht hct =>
      have hidle : Idles (d :: refs) s t := ⟨ht, base, hct⟩
      have hclose := ltfsFsopsClose_idles true hio hs hidle
      dsimp only
      split
      · exact hidle.forget
      · split
        · exact hidle.forget
        · revert hclose
          generalize ltfsFsopsClose env d false false true {} t = c
          intro hclose
          obtain ⟨ret, u⟩ := c
          cases ret with
          | error e => exact hclose
          | ok _ => exact hclose
  · exact Idles.of_counted hc

/-! ## Attributes that are read -/

theorem withDentry_idles (keys : Keys) (path : Path) (hs : Tree s) (hc : Counted base refs s)
    (hcall : ∀ d t, Idles (d :: refs) s t → Idles (d :: refs) s (call d t)) :
    Idles refs s (withDentry keys path call s).2 := by
  have hlook := withDentry_spec keys path call hs hc
  generalize withDentry keys path call s = r at hlook ⊢
  cases hlook with
  | failed e t _ ht hct => exact ⟨ht, base, hct⟩
  | found d t _ ht hct => exact (hcall d t ⟨ht, base, hct⟩).release hs

theorem xattrRound_idles (path : Path) (reply : XattrReply) (hs : Tree s)
    (hc : Counted base refs s)
    (hcall : ∀ d t, Idles (d :: refs) s t → Idles (d :: refs) s (call d t)) :
    Idles refs s (xattrRound path reply call s).2 := by
  have hwith := withDentry_idles reply.keys path hs hc hcall
  rw [xattrRound]
  cases reply.lock with
  | some e => exact Idles.of_counted hc
  | none =>
    dsimp only
    generalize withDentry reply.keys path call s = r at hwith ⊢
    obtain ⟨ret, t⟩ := r
    cases ret with
    | error e => exact hwith
    | ok d =>
      dsimp only
      cases reply.ret with
      | some e => exact hwith
      | none => exact hwith

theorem xattrGet_idles (name : XattrName) (journal : List JEntry) (d : ℕ)
    (hs : Tree s) (h : Idles refs s t) : Idles refs s (xattrGet name journal d t) := by
  rw [xattrGet]
  split
  · obtain ⟨base, hc⟩ := h.counted
    obtain ⟨hframe, hcount⟩ :=
      fsPathClean_foldl_spec (incjParents none journal) (hs.frame h.frame) hc
    exact ⟨h.frame.trans hframe, _, hcount.leakAll⟩
  · exact h

theorem getxattrRounds_idles (path : Path) (name : XattrName) (journal : List JEntry)
    (last : XattrReply) (again : List XattrRound) (hs : Tree s)
    (hc : Counted base refs s) :
    Idles refs s (getxattrRounds path name journal last again s).2 := by
  have hround (reply : XattrReply) {s : LtfsIndex} {base : ℕ → ℕ} (hs : Tree s)
      (hc : Counted base refs s) :
      Idles refs s (xattrRound path reply (xattrGet name journal) s).2 :=
    xattrRound_idles path reply hs hc fun d _ => xattrGet_idles name journal d hs
  induction again generalizing s base with
  | nil => exact hround last hs hc
  | cons round again ih =>
    have hfirst := hround { round with } hs hc
    rw [getxattrRounds]
    generalize xattrRound path { round with } (xattrGet name journal) s = r at hfirst ⊢
    obtain ⟨ret, t⟩ := r
    cases ret with
    | error e => exact hfirst
    | ok d =>
      dsimp only
      split
      · exact hfirst
      · obtain ⟨base', hc'⟩ := hfirst.counted
        exact hfirst.trans (ih (hs.frame hfirst.frame) hc')

/-! ## Refusals -/

section Refused

variable (hro : env.volumeReadonly = some .rdonlyVolume) (path : Except FsError Path)
  (name : Except FsError XattrName)

include hro

theorem Env.writable_of_rdonly : env.writable = some .rdonlyVolume := by
  rw [Env.writable, hro]

theorem ltfsFsopsCreate_refused (isdir readonly overwrite : Bool) (mem : Memory)
    (worm : Option FsError) (s : LtfsIndex) :
    ltfsFsopsCreate env path isdir readonly overwrite mem worm s =
      (.error .rdonlyVolume, s) := by
  have hadm : env.admitCreate path = .error .rdonlyVolume := by
    rw [Env.admitCreate, hro]
    rfl
  rw [ltfsFsopsCreate, hadm]

/-- Admission of a call that asks the scheduler first. -/
theorem refuse_scheduler {α : Type} (next : Except FsError α) :
    ∃ e, (refuse env.scheduler >>= fun _ => refuse env.writable >>= fun _ => next) =
      .error e := by
  rw [Env.writable_of_rdonly hro]
  cases env.scheduler with
  | some e => exact ⟨e, rfl⟩
  | none => exact ⟨.rdonlyVolume, rfl⟩

theorem ltfsFsopsUnlink_refused (s : LtfsIndex) :
    ∃ e, ltfsFsopsUnlink env path s = (.error e, s) := by
  obtain ⟨e, he⟩ : ∃ e, env.admitUnlink path = .error e := refuse_scheduler hro _
  exact ⟨e, by rw [ltfsFsopsUnlink, he]⟩

theorem ltfsFsopsRename_refused (source target : Except FsError Path) (mem : Memory)
    (s : LtfsIndex) : ∃ e, ltfsFsopsRename env source target mem s = (.error e, s) := by
  obtain ⟨e, he⟩ : ∃ e, env.admitRename source target mem = .error e :=
    refuse_scheduler hro _
  exact ⟨e, by rw [ltfsFsopsRename, he]⟩

theorem ltfsFsopsOpen_refused (useIosched : Bool) (sched : SchedReply) (s : LtfsIndex) :
    ∃ e, ltfsFsopsOpen env path true useIosched sched s = (.error e, s) := by
  obtain ⟨e, he⟩ : ∃ e, env.admitOpen path true = .error e := refuse_scheduler hro _
  exact ⟨e, by rw [ltfsFsopsOpen, he]⟩

theorem Env.admitChange_refused : env.admitChange = .error .rdonlyVolume := by
  rw [Env.admitChange, Env.writable_of_rdonly hro]
  rfl

theorem Env.admitXattr_refused :
    env.admitXattr true false path name = .error .rdonlyVolume := by
  rw [Env.admitXattr, Env.writable_of_rdonly hro]
  rfl

theorem ltfsFsopsSetxattr_refused (size : ℕ) (again : List XattrRound)
    (last : XattrReply) (s : LtfsIndex) :
    ∃ e, ltfsFsopsSetxattr env false path name size again last s = (.error e, s) := by
  rw [ltfsFsopsSetxattr]
  split
  · exact ⟨_, rfl⟩
  · rw [Env.admitXattr_refused hro]
    exact ⟨_, rfl⟩

theorem ltfsFsopsRemovexattr_refused (reply : XattrReply) (s : LtfsIndex) :
    ltfsFsopsRemovexattr env path name reply s = (.error .rdonlyVolume, s) := by
  rw [ltfsFsopsRemovexattr, Env.admitXattr_refused hro]

/-- Times and marks are changed through a dentry that has been opened for
reading: the call takes a reference, is refused, and gives it back. -/
theorem ltfsFsopsUtimensPath_refused (hs : Tree s) (hc : Counted base refs s) :
    (∃ e, (ltfsFsopsUtimensPath env path s).1 = .error e) ∧
      Idles refs s (ltfsFsopsUtimensPath env path s).2 := by
  have hopen := ltfsFsopsOpen_read env path false {} hs hc
  rw [ltfsFsopsUtimensPath]
  generalize ltfsFsopsOpen env path false false {} s = r at hopen ⊢
  cases hopen with
  | failed e t _ ht hct => exact ⟨⟨e, rfl⟩, ht, base, hct⟩
  | found d t _ hio _ ht hct =>
    simp only [ltfsFsopsUtimens, Env.admitChange_refused hro]
    exact ⟨⟨_, rfl⟩, ltfsFsopsClose_idles false hio hs ⟨ht, base, hct⟩⟩

theorem ltfsFsopsSetReadonlyPath_refused (readonly : Bool) (hs : Tree s)
    (hc : Counted base refs s) :
    (∃ e, (ltfsFsopsSetReadonlyPath env path readonly s).1 = .error e) ∧
      Idles refs s (ltfsFsopsSetReadonlyPath env path readonly s).2 := by
  have hopen := ltfsFsopsOpen_read env path false {} hs hc
  rw [ltfsFsopsSetReadonlyPath]
  generalize ltfsFsopsOpen env path false false {} s = r at hopen ⊢
  cases hopen with
  | failed e t _ ht hct => exact ⟨⟨e, rfl⟩, ht, base, hct⟩
  | found d t _ hio _ ht hct =>
    have hidle : Idles (d :: refs) s t := ⟨ht, base, hct⟩
    dsimp only
    split
    · exact ⟨⟨_, rfl⟩, hidle.forget⟩
    · simp only [ltfsFsopsSetReadonly, Env.admitChange_refused hro]
      exact ⟨⟨_, rfl⟩, ltfsFsopsClose_idles false hio hs hidle⟩

end Refused

/-! ## All operations by path -/

/-- What an operation returns, without the value it finds. -/
def PathOp.ret (env : Env) (op : PathOp) (s : LtfsIndex) : Except FsError Unit :=
  match op with
  | .rename source target mem => (ltfsFsopsRename env source target mem s).1
  | .unlink path => (ltfsFsopsUnlink env path s).1
  | .setReadonly path readonly => (ltfsFsopsSetReadonlyPath env path readonly s).1
  | .readlink path buf => (ltfsFsopsReadlinkPath env path buf s).1.map fun _ => ()
  | .utimens path => (ltfsFsopsUtimensPath env path s).1
  | .getattr path => (ltfsFsopsGetattrPath env path s).1.map fun _ => ()
  | .setxattr exempt path name size again last =>
    (ltfsFsopsSetxattr env exempt path name size again last s).1
  | .getxattr path name journal again last =>
    (ltfsFsopsGetxattr env path name journal again last s).1
  | .listxattr path reply => (ltfsFsopsListxattr path reply s).1
  | .removexattr path name reply => (ltfsFsopsRemovexattr env path name reply s).1

/-- The operations that are there to change something. -/
def PathOp.mutates : PathOp → Bool
  | .rename .. | .unlink .. | .setReadonly .. | .utimens .. | .setxattr ..
  | .removexattr .. => true
  | .readlink .. | .getattr .. | .getxattr .. | .listxattr .. => false

/-- Setting the volume lock state is let through on any volume. -/
def PathOp.exempt : PathOp → Bool
  | .setxattr exempt .. => exempt
  | _ => false

theorem PathOp.exec_idles (hro : env.volumeReadonly = some .rdonlyVolume) (op : PathOp)
    (hop : op.exempt = false) (hs : Tree s) (hc : Counted base refs s) :
    Idles refs s (op.exec env s) := by
  -- a call that is refused at once leaves the very state it found
  have hsame {r : Outcome FsError LtfsIndex Unit} (h : ∃ e, r = (.error e, s)) :
      Idles refs s r.2 := by
    obtain ⟨e, rfl⟩ := h
    exact Idles.of_counted hc
  cases op with
  | rename source target mem => exact hsame (ltfsFsopsRename_refused hro source target mem s)
  | unlink path => exact hsame (ltfsFsopsUnlink_refused hro path s)
  | setReadonly path readonly =>
    exact (ltfsFsopsSetReadonlyPath_refused hro path readonly hs hc).2
  | readlink path buf => exact ltfsFsopsReadlinkPath_idles env path buf hs hc
  | utimens path => exact (ltfsFsopsUtimensPath_refused hro path hs hc).2
  | getattr path => exact ltfsFsopsGetattrPath_idles env path hs hc
  | setxattr exempt path name size again last =>
    obtain rfl : exempt = false := hop
    exact hsame (ltfsFsopsSetxattr_refused hro path name size again last s)
  | getxattr path name journal again last =>
    rw [PathOp.exec, ltfsFsopsGetxattr]
    cases env.admitXattr false false path name with
    | error e => exact Idles.of_counted hc
    | ok admitted =>
      exact getxattrRounds_idles admitted.1 admitted.2 journal last again hs hc
  | listxattr path reply =>
    rw [PathOp.exec, ltfsFsopsListxattr]
    cases sourcePath path with
    | error e => exact Idles.of_counted hc
    | ok path => exact xattrRound_idles path reply hs hc fun _ _ ht => ht
  | removexattr path name reply =>
    exact hsame ⟨_, ltfsFsopsRemovexattr_refused hro path name reply s⟩

theorem PathOp.ret_refused (hro : env.volumeReadonly = some .rdonlyVolume) (op : PathOp)
    (hop : op.exempt = false) (hmutates : op.mutates = true) (hs : Tree s)
    (hc : Counted base refs s) : ∃ e, op.ret env s = .error e := by
  have hfst {r : Outcome FsError LtfsIndex Unit} (h : ∃ e, r = (.error e, s)) :
      ∃ e, r.1 = .error e := by
    obtain ⟨e, rfl⟩ := h
    exact ⟨e, rfl⟩
  cases op with
  | rename source target mem => exact hfst (ltfsFsopsRename_refused hro source target mem s)
  | unlink path => exact hfst (ltfsFsopsUnlink_refused hro path s)
  | setReadonly path readonly =>
    exact (ltfsFsopsSetReadonlyPath_refused hro path readonly hs hc).1
  | utimens path => exact (ltfsFsopsUtimensPath_refused hro path hs hc).1
  | setxattr exempt path name size again last =>
    obtain rfl : exempt = false := hop
    exact hfst (ltfsFsopsSetxattr_refused hro path name size again last s)
  | removexattr path name reply =>
    exact hfst ⟨_, ltfsFsopsRemovexattr_refused hro path name reply s⟩
  | readlink path buf => cases hmutates
  | getattr path => cases hmutates
  | getxattr path name journal again last => cases hmutates
  | listxattr path reply => cases hmutates

end AuroraLtfs.Fs
