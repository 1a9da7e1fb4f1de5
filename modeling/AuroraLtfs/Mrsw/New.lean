import AuroraLtfs.Mrsw.Old

/-!
# The reader-writer lock on a `pthread_rwlock`

`MultiReaderSingleWriter` of `ltfs_locking_new.h`, statement by statement.  The
`pthread_rwlock` is a correct reader-writer lock: it is free, held by a number of
readers, or held by a writer, and an unlock gives up what the caller holds.  Both
implementations keep their promises (`mrsw_safe`).
-/

namespace AuroraLtfs.Mrsw

namespace New

open AuroraLtfs.Threads

/-- `struct MultiReaderSingleWriter`; the `pthread_rwlock` is given by its holders. -/
structure Lock where
  exclusiveMutex : Bool
  rwWriter : Bool
  rwReaders : ℕ
  writer : Bool
  longLock : Bool
  deriving DecidableEq, Repr

/-- `init_mrsw`. -/
def initMrsw : Lock := ⟨false, false, 0, false, false⟩

/-- Where a thread is, as in the other implementation. -/
inductive Point where
  | idle
  | reading
  | writing
  -- `try_acquirewrite_mrsw`
  | tryExclusive
  | tryLock
  | tryUndo
  | tryFlag
  -- `acquirewrite_mrsw`, and `acquirewrite_mrsw_long` for a long lock
  | writeExclusive (long : Bool)
  | writeLock (long : Bool)
  | writeFlag (long : Bool)
  | writeLong (long : Bool)
  -- `releasewrite_mrsw`
  | dropFlag
  | dropLong
  | dropLock
  | dropExclusive
  -- `acquireread_mrsw`
  | readExclusive
  | readLong
  | readPass
  | readLock
  -- the gate of `acquireread_mrsw_short`
  | shortTest
  | shortTry
  | shortAgain
  | shortPass
  -- `releaseread_mrsw`
  | leaveLock
  -- `release_mrsw`
  | releaseTest (held : Mode)
  -- `writetoread_mrsw`
  | downFlag
  | downLong
  | downUnlock
  | downLock
  | downExclusive
  deriving DecidableEq, Repr

namespace Lock

def lockExclusive (l : Lock) (next : Point) : List (Lock × Point) :=
  if l.exclusiveMutex then [] else [({ l with exclusiveMutex := true }, next)]

def unlockExclusive (l : Lock) (next : Point) : List (Lock × Point) :=
  [({ l with exclusiveMutex := false }, next)]

def trylockExclusive (l : Lock) (got busy : Point) : List (Lock × Point) :=
  if l.exclusiveMutex then [(l, busy)]
  else [({ l with exclusiveMutex := true }, got)]

/-- Nobody holds the `pthread_rwlock`. -/
def free (l : Lock) : Bool := !l.rwWriter && l.rwReaders == 0

/-- `pthread_rwlock_wrlock`. -/
def wrlock (l : Lock) (next : Point) : List (Lock × Point) :=
  if l.free then [({ l with rwWriter := true }, next)] else []

/-- `pthread_rwlock_trywrlock`. -/
def trywrlock (l : Lock) (got busy : Point) : List (Lock × Point) :=
  if l.free then [({ l with rwWriter := true }, got)] else [(l, busy)]

/-- `pthread_rwlock_rdlock`. -/
def rdlock (l : Lock) (next : Point) : List (Lock × Point) :=
  if l.rwWriter then [] else [({ l with rwReaders := l.rwReaders + 1 }, next)]

/-- `pthread_rwlock_unlock`. -/
def rwUnlock (l : Lock) (next : Point) : List (Lock × Point) :=
  if l.rwWriter then [({ l with rwWriter := false }, next)]
  else [({ l with rwReaders := l.rwReaders - 1 }, next)]

end Lock

/-- The statements.  A thread releases only a lock it holds. -/
def run : Point → Lock → List (Lock × Point)
  | .idle, l => [(l, .tryExclusive), (l, .writeExclusive false),
      (l, .writeExclusive true), (l, .readExclusive), (l, .shortTest)]
  | .reading, l => [(l, .leaveLock), (l, .releaseTest .read)]
  | .writing, l => [(l, .dropFlag), (l, .releaseTest .write), (l, .downFlag)]
  | .tryExclusive, l => l.trylockExclusive .tryLock .idle
  | .tryLock, l => l.trywrlock .tryFlag .tryUndo
  | .tryUndo, l => l.unlockExclusive .idle
  | .tryFlag, l => [({ l with writer := true }, .writing)]
  | .writeExclusive long, l => l.lockExclusive (.writeLock long)
  | .writeLock long, l => l.wrlock (.writeFlag long)
  | .writeFlag long, l => [({ l with writer := true }, .writeLong long)]
  | .writeLong long, l => [({ l with longLock := long }, .writing)]
  | .dropFlag, l => [({ l with writer := false }, .dropLong)]
  | .dropLong, l => [({ l with longLock := false }, .dropLock)]
  | .dropLock, l => l.rwUnlock .dropExclusive
  | .dropExclusive, l => l.unlockExclusive .idle
  | .readExclusive, l => l.lockExclusive .readLong
  | .readLong, l => [({ l with longLock := false }, .readPass)]
  | .readPass, l => l.unlockExclusive .readLock
  | .readLock, l => l.rdlock .reading
  | .shortTest, l => [(l, if l.longLock then .idle else .shortTry)]
  | .shortTry, l => l.trylockExclusive .shortPass .shortAgain
  | .shortAgain, l => [(l, if l.longLock then .idle else .shortTry)]
  | .shortPass, l => l.unlockExclusive .readLock
  | .leaveLock, l => l.rwUnlock .idle
  | .releaseTest _, l => [(l, if l.writer then .dropFlag else .leaveLock)]
  | .downFlag, l => [({ l with writer := false }, .downLong)]
  | .downLong, l => [({ l with longLock := false }, .downUnlock)]
  | .downUnlock, l => l.rwUnlock .downLock
  | .downLock, l => l.rdlock .downExclusive
  | .downExclusive, l => l.unlockExclusive .reading

/-! ## What a thread has -/

/-- What a thread owns: `exclusive_mutex`, the flag it has set, and the
`pthread_rwlock` for writing or for reading. -/
structure Profile where
  exclusive : Bool := false
  flagged : Bool := false
  writes : Bool := false
  reads : Bool := false
  deriving DecidableEq, Repr

namespace Point

def profile : Point → Profile
  | idle | tryExclusive | writeExclusive _ | readExclusive | readLock | shortTest
  | shortTry | shortAgain => {}
  | tryLock | tryUndo | writeLock _ | dropExclusive | readLong | readPass | shortPass
  | downLock => { exclusive := true }
  | tryFlag | writeFlag _ | dropLong | dropLock | downLong | downUnlock =>
    { exclusive := true, writes := true }
  | writing | writeLong _ | dropFlag | releaseTest .write | downFlag =>
    { exclusive := true, writes := true, flagged := true }
  | reading | releaseTest .read | leaveLock => { reads := true }
  | downExclusive => { exclusive := true, reads := true }

end Point

/-- What the statements do to the lock and to what the thread has. -/
inductive Effect (l : Lock) (f : Profile) : Lock → Profile → Prop
  | quiet (long : Bool) : Effect l f { l with longLock := long } f
  | lockExclusive (unlocked : l.exclusiveMutex = false) (had : f.exclusive = false) :
      Effect l f { l with exclusiveMutex := true } { f with exclusive := true }
  | unlockExclusive (had : f.exclusive = true) :
      Effect l f { l with exclusiveMutex := false } { f with exclusive := false }
  | raise (exclusive : f.exclusive = true) (had : f.flagged = false) :
      Effect l f { l with writer := true } { f with flagged := true }
  | lower (had : f.flagged = true) :
      Effect l f { l with writer := false } { f with flagged := false }
  | take (free : l.rwWriter = false ∧ l.rwReaders = 0) (had : f.writes = false) :
      Effect l f { l with rwWriter := true } { f with writes := true }
  | give (had : f.writes = true) :
      Effect l f { l with rwWriter := false } { f with writes := false }
  | enter (unwritten : l.rwWriter = false) (had : f.reads = false) :
      Effect l f { l with rwReaders := l.rwReaders + 1 } { f with reads := true }
  | leave (had : f.reads = true) :
      Effect l f { l with rwReaders := l.rwReaders - 1 } { f with reads := false }

section Statements

variable {l l' : Lock} {p q : Point}

theorem mem_lockExclusive {next : Point} (h : (l', q) ∈ l.lockExclusive next) :
    l.exclusiveMutex = false ∧ l' = { l with exclusiveMutex := true } ∧ q = next := by
  unfold Lock.lockExclusive at h
  split_ifs at h with hlocked
  · simp at h
  · simpa [hlocked] using h

theorem mem_trylockExclusive {got busy : Point}
    (h : (l', q) ∈ l.trylockExclusive got busy) :
    (l.exclusiveMutex = false ∧ l' = { l with exclusiveMutex := true } ∧ q = got) ∨
      l' = l ∧ q = busy := by
  unfold Lock.trylockExclusive at h
  split_ifs at h with hlocked
  · right
    simpa using h
  · left
    simpa [hlocked] using h

theorem free_iff : l.free = true ↔ l.rwWriter = false ∧ l.rwReaders = 0 := by
  simp [Lock.free]

theorem mem_wrlock {next : Point} (h : (l', q) ∈ l.wrlock next) :
    (l.rwWriter = false ∧ l.rwReaders = 0) ∧ l' = { l with rwWriter := true } ∧
      q = next := by
  unfold Lock.wrlock at h
  split_ifs at h with hfree
  · exact ⟨free_iff.1 hfree, by simpa using h⟩
  · simp at h

theorem mem_trywrlock {got busy : Point} (h : (l', q) ∈ l.trywrlock got busy) :
    ((l.rwWriter = false ∧ l.rwReaders = 0) ∧ l' = { l with rwWriter := true } ∧
      q = got) ∨ l' = l ∧ q = busy := by
  unfold Lock.trywrlock at h
  split_ifs at h with hfree
  · exact .inl ⟨free_iff.1 hfree, by simpa using h⟩
  · exact .inr (by simpa using h)

theorem mem_rdlock {next : Point} (h : (l', q) ∈ l.rdlock next) :
    l.rwWriter = false ∧ l' = { l with rwReaders := l.rwReaders + 1 } ∧ q = next := by
  unfold Lock.rdlock at h
  split_ifs at h with hwriter
  · simp at h
  · simpa [hwriter] using h

/-- The thread's own part of the lock: the `pthread_rwlock` is held as the thread
holds it, and the flag is set just where the thread in `release_mrsw` is the
writer. -/
structure Informed (l : Lock) (p : Point) : Prop where
  writes : p.profile.writes = true → l.rwWriter = true
  reads : p.profile.reads = true → l.rwWriter = false
  release : ∀ held, p = .releaseTest held → l.writer = decide (held = .write)

theorem Effect.same (l : Lock) (f : Profile) : Effect l f l f := .quiet l.longLock

theorem run_effect (hinformed : Informed l p) (hrun : (l', q) ∈ run p l) :
    Effect l p.profile l' q.profile := by
  cases p with
  | idle =>
    simp only [run, List.mem_cons, Prod.mk.injEq, List.not_mem_nil, or_false] at hrun
    rcases hrun with ⟨rfl, rfl⟩ | ⟨rfl, rfl⟩ | ⟨rfl, rfl⟩ | ⟨rfl, rfl⟩ | ⟨rfl, rfl⟩ <;>
      exact .same _ _
  | reading =>
    simp only [run, List.mem_cons, Prod.mk.injEq, List.not_mem_nil, or_false] at hrun
    rcases hrun with ⟨rfl, rfl⟩ | ⟨rfl, rfl⟩ <;> exact .same _ _
  | writing =>
    simp only [run, List.mem_cons, Prod.mk.injEq, List.not_mem_nil, or_false] at hrun
    rcases hrun with ⟨rfl, rfl⟩ | ⟨rfl, rfl⟩ | ⟨rfl, rfl⟩ <;> exact .same _ _
  | tryExclusive | shortTry =>
    rcases mem_trylockExclusive hrun with ⟨hfree, rfl, rfl⟩ | ⟨rfl, rfl⟩
    · exact .lockExclusive hfree rfl
    · exact .same _ _
  | writeExclusive long | readExclusive =>
    obtain ⟨hfree, rfl, rfl⟩ := mem_lockExclusive hrun
    exact .lockExclusive hfree rfl
  | tryLock =>
    rcases mem_trywrlock hrun with ⟨hfree, rfl, rfl⟩ | ⟨rfl, rfl⟩
    · exact .take hfree rfl
    · exact .same _ _
  | writeLock long =>
    obtain ⟨hfree, rfl, rfl⟩ := mem_wrlock hrun
    exact .take hfree rfl
  | readLock | downLock =>
    obtain ⟨hwriter, rfl, rfl⟩ := mem_rdlock hrun
    exact .enter hwriter rfl
  | tryUndo | dropExclusive | readPass | shortPass | downExclusive =>
    obtain ⟨rfl, rfl⟩ := Prod.mk.inj (List.mem_singleton.1 hrun)
    exact .unlockExclusive rfl
  | dropLock | downUnlock =>
    rw [run, Lock.rwUnlock, if_pos (hinformed.writes rfl)] at hrun
    obtain ⟨rfl, rfl⟩ := Prod.mk.inj (List.mem_singleton.1 hrun)
    exact .give rfl
  | leaveLock =>
    rw [run, Lock.rwUnlock, if_neg (by simp [hinformed.reads rfl])] at hrun
    obtain ⟨rfl, rfl⟩ := Prod.mk.inj (List.mem_singleton.1 hrun)
    exact .leave rfl
  | tryFlag | writeFlag long =>
    obtain ⟨rfl, rfl⟩ := Prod.mk.inj (List.mem_singleton.1 hrun)
    exact .raise rfl rfl
  | dropFlag | downFlag =>
    obtain ⟨rfl, rfl⟩ := Prod.mk.inj (List.mem_singleton.1 hrun)
    exact .lower rfl
  | writeLong long | dropLong | readLong | downLong =>
    obtain ⟨rfl, rfl⟩ := Prod.mk.inj (List.mem_singleton.1 hrun)
    exact .quiet _
  | shortTest | shortAgain =>
    obtain ⟨rfl, rfl⟩ := Prod.mk.inj (List.mem_singleton.1 hrun)
    split_ifs <;> exact .same _ _
  | releaseTest held =>
    obtain ⟨rfl, rfl⟩ := Prod.mk.inj (List.mem_singleton.1 hrun)
    rw [hinformed.release held rfl]
    cases held <;> exact .same _ _

end Statements

/-! ## The invariant -/

/-- How many threads have what. -/
structure Tally where
  exclusive : ℕ
  flagged : ℕ
  writes : ℕ
  reads : ℕ

/-- The lock agrees with what the threads have. -/
structure Balanced (n : Tally) (l : Lock) : Prop where
  exclusive : n.exclusive = l.exclusiveMutex.toNat
  flagged : n.flagged = l.writer.toNat
  writes : n.writes = l.rwWriter.toNat
  reads : n.reads = l.rwReaders
  apart : n.writes = 0 ∨ n.reads = 0

/-- A thread goes from the profile `f` to `g`. -/
structure Moved (f g : Profile) (n n' : Tally) : Prop where
  exclusive : n'.exclusive + f.exclusive.toNat = n.exclusive + g.exclusive.toNat
  flagged : n'.flagged + f.flagged.toNat = n.flagged + g.flagged.toNat
  writes : n'.writes + f.writes.toNat = n.writes + g.writes.toNat
  reads : n'.reads + f.reads.toNat = n.reads + g.reads.toNat

theorem Effect.balanced {n n' : Tally} {l l' : Lock} {f g : Profile}
    (heffect : Effect l f l' g) (h : Balanced n l)
    (halone : f.exclusive = true → n.flagged = f.flagged.toNat)
    (hmoved : Moved f g n n') : Balanced n' l' := by
  obtain ⟨hexclusive, hflagged, hwrites, hreads, hapart⟩ := h
  obtain ⟨h₁, h₂, h₃, h₄⟩ := hmoved
  -- what holds where the thread keeps what it has
  have hmutex (hf : g.exclusive = f.exclusive) : n'.exclusive = l.exclusiveMutex.toNat :=
    by rw [hf] at h₁; omega
  have hflag (hf : g.flagged = f.flagged) : n'.flagged = l.writer.toNat := by
    rw [hf] at h₂; omega
  have hwriter (hf : g.writes = f.writes) : n'.writes = l.rwWriter.toNat := by
    rw [hf] at h₃; omega
  have hreaders (hf : g.reads = f.reads) : n'.reads = l.rwReaders := by
    rw [hf] at h₄; omega
  have hboth (hw : g.writes = f.writes) (hr : g.reads = f.reads) :
      n'.writes = 0 ∨ n'.reads = 0 := by
    rw [hwriter hw, hreaders hr, ← hwrites, ← hreads]
    exact hapart
  cases heffect with
  | quiet long => exact ⟨hmutex rfl, hflag rfl, hwriter rfl, hreaders rfl, hboth rfl rfl⟩
  | lockExclusive unlocked had =>
    rw [unlocked] at hexclusive
    exact ⟨num_taken h₁ had hexclusive, hflag rfl, hwriter rfl, hreaders rfl, hboth rfl rfl⟩
  | unlockExclusive had =>
    have hle := hexclusive.trans_le l.exclusiveMutex.toNat_le
    exact ⟨num_given h₁ had hle, hflag rfl, hwriter rfl, hreaders rfl, hboth rfl rfl⟩
  | raise exclusive had =>
    have hnone := halone exclusive
    rw [had] at hnone
    exact ⟨hmutex rfl, num_taken h₂ had hnone, hwriter rfl, hreaders rfl, hboth rfl rfl⟩
  | lower had =>
    have hle := hflagged.trans_le l.writer.toNat_le
    exact ⟨hmutex rfl, num_given h₂ had hle, hwriter rfl, hreaders rfl, hboth rfl rfl⟩
  | take free had =>
    have hnone : n'.reads = 0 := (hreaders rfl).trans free.2
    rw [free.1] at hwrites
    exact ⟨hmutex rfl, hflag rfl, num_taken h₃ had hwrites, hreaders rfl, .inr hnone⟩
  | give had =>
    have hnone := num_given h₃ had (hwrites.trans_le l.rwWriter.toNat_le)
    exact ⟨hmutex rfl, hflag rfl, hnone, hreaders rfl, .inl hnone⟩
  | enter unwritten had =>
    have hnone : n'.writes = 0 := by
      rw [hwriter rfl, unwritten, Bool.toNat_false]
    refine ⟨hmutex rfl, hflag rfl, hwriter rfl, ?_, .inl hnone⟩
    simp only [had, Bool.toNat_false, Bool.toNat_true] at h₄ ⊢
    omega
  | leave had =>
    have hpos := hwriter rfl
    simp only [had, Bool.toNat_false, Bool.toNat_true] at h₄
    refine ⟨hmutex rfl, hflag rfl, hpos, ?_, ?_⟩
    · dsimp only
      omega
    · rw [← hwrites] at hpos
      omega

/-! ## Whole runs -/

section Runs

variable {ι : Type*} [Fintype ι] {pc : ι → Point} {t u : ι}

/-- The number of threads with a profile of the class. -/
def having (c : Profile → Bool) (pc : ι → Point) : ℕ := num (fun p => c p.profile) pc

def tally (pc : ι → Point) : Tally where
  exclusive := having Profile.exclusive pc
  flagged := having Profile.flagged pc
  writes := having Profile.writes pc
  reads := having Profile.reads pc

theorem having_update [DecidableEq ι] (c : Profile → Bool) (pc : ι → Point) (t : ι)
    (q : Point) : having c (Function.update pc t q) + (c (pc t).profile).toNat =
      having c pc + (c q.profile).toNat :=
  num_update _ pc t q

theorem tally_moved [DecidableEq ι] (pc : ι → Point) (t : ι) (q : Point) :
    Moved (pc t).profile q.profile (tally pc) (tally (Function.update pc t q)) where
  exclusive := having_update _ pc t q
  flagged := having_update _ pc t q
  writes := having_update _ pc t q
  reads := having_update _ pc t q

/-- A thread sets the flag only as the writer, and is the writer only with
`exclusive_mutex`. -/
theorem Point.profile_nested (p : Point) :
    (p.profile.flagged = true → p.profile.writes = true) ∧
      (p.profile.writes = true → p.profile.exclusive = true) := by
  cases p with
  | releaseTest held => cases held <;> decide
  | _ => simp [profile]

theorem having_pos {c : Profile → Bool} (h : c (pc t).profile = true) : 0 < having c pc :=
  num_pos (P := fun p : Point => c p.profile) h

variable {l : Lock}

/-- The thread with `exclusive_mutex` is the only one. -/
theorem eq_of_exclusive (h : Balanced (tally pc) l)
    (ht : (pc t).profile.exclusive = true) (hu : (pc u).profile.exclusive = true) :
    t = u := by
  have hle : (tally pc).exclusive ≤ 1 := h.exclusive ▸ Bool.toNat_le _
  exact eq_of_num_le_one hle ht hu

theorem flagged_alone (h : Balanced (tally pc) l) (ht : (pc t).profile.exclusive = true) :
    (tally pc).flagged = (pc t).profile.flagged.toNat := by
  have hle : (tally pc).exclusive ≤ 1 := h.exclusive ▸ Bool.toNat_le _
  exact num_of_unique (P := fun p : Point => p.profile.flagged)
    (R := fun p : Point => p.profile.exclusive) hle ht
    fun p hp => p.profile_nested.2 (p.profile_nested.1 hp)

theorem toNat_pos {b : Bool} : 0 < b.toNat ↔ b = true := by
  cases b <;> simp

theorem informed (h : Balanced (tally pc) l) (t : ι) : Informed l (pc t) := by
  have hflagged : (tally pc).flagged ≤ (tally pc).writes :=
    num_mono (fun p : Point => p.profile_nested.1) pc
  -- with a reader there is no writer, and no flag
  have hunwritten : (pc t).profile.reads = true → (tally pc).writes = 0 := by
    intro ht
    have hpos : 0 < (tally pc).reads := having_pos ht
    exact h.apart.resolve_right hpos.ne'
  refine ⟨?_, ?_, ?_⟩
  · intro ht
    have hpos : 0 < (tally pc).writes := having_pos ht
    exact toNat_pos.1 (h.writes ▸ hpos)
  · intro ht
    exact Bool.toNat_eq_zero.1 (h.writes ▸ hunwritten ht)
  · intro held hpc
    cases held with
    | read =>
      have hnone := hunwritten (by rw [hpc]; rfl)
      exact Bool.toNat_eq_zero.1 (by rw [← h.flagged]; omega)
    | write =>
      have ht : (pc t).profile.flagged = true := by rw [hpc]; rfl
      have hpos : 0 < (tally pc).flagged := having_pos ht
      exact toNat_pos.1 (h.flagged ▸ hpos)

/-- All threads at rest on a new lock. -/
def start : State ι Lock Point := ⟨initMrsw, fun _ => .idle⟩

theorem having_idle {c : Profile → Bool} (hc : c {} = false) :
    having c (fun _ : ι => Point.idle) = 0 := by
  have hcount := num_const (ι := ι) (fun p : Point => c p.profile) .idle
  rwa [if_neg (by simpa [Point.profile] using hc)] at hcount

theorem balanced_start (ι : Type*) [Fintype ι] :
    Balanced (tally (start (ι := ι)).pc) (start (ι := ι)).shared where
  exclusive := having_idle rfl
  flagged := having_idle rfl
  writes := having_idle rfl
  reads := having_idle rfl
  apart := .inl (having_idle rfl)

/-- The thread holds the lock for writing. -/
def WriteHolds (s : State ι Lock Point) (t : ι) : Prop := (s.pc t).profile.writes = true

/-- The thread holds the lock for reading. -/
def ReadHolds (s : State ι Lock Point) (t : ι) : Prop := (s.pc t).profile.reads = true

/-- The thread is in `writetoread_mrsw`, between its write hold and its read
hold. -/
def Downgrading (s : State ι Lock Point) (t : ι) : Prop := s.pc t = .downLock

/-- What the lock promises. -/
structure Safe (s : State ι Lock Point) : Prop where
  oneWriter : ∀ t u, WriteHolds s t → WriteHolds s u → t = u
  excludes : ∀ t u, WriteHolds s t → ¬ReadHolds s u
  releases : ∀ t held, s.pc t = .releaseTest held → run (s.pc t) s.shared =
    [(s.shared, match held with
      | .write => .dropFlag
      | .read => .leaveLock)]
  downgrades : ∀ t u, Downgrading s t → ¬WriteHolds s u

variable [DecidableEq ι] {s : State ι Lock Point}

/-- The invariant of every interleaving. -/
theorem balanced_of_reachable (h : Reachable run start s) :
    Balanced (tally s.pc) s.shared := by
  refine h.invariant (P := fun s => Balanced (tally s.pc) s.shared) (balanced_start ι) ?_
  rintro s _ hs ⟨t, hrun⟩
  exact (run_effect (informed hs t) hrun).balanced hs (flagged_alone hs)
    (tally_moved s.pc t _)

omit [DecidableEq ι] in
theorem safe_of_balanced (h : Balanced (tally s.pc) s.shared) : Safe s := by
  refine ⟨?_, ?_, ?_, ?_⟩
  · intro t u ht hu
    exact eq_of_exclusive h ((s.pc t).profile_nested.2 ht) ((s.pc u).profile_nested.2 hu)
  · intro t u ht hu
    have hwrites : 0 < (tally s.pc).writes := having_pos ht
    have hreads : 0 < (tally s.pc).reads := having_pos hu
    have hapart := h.apart
    omega
  · intro t held hpc
    have hwriter := (informed h t).release held hpc
    rw [hpc, run, hwriter]
    cases held <;> rfl
  · intro t u ht hu
    have hexclusive : (s.pc t).profile.exclusive = true := by rw [ht]; rfl
    obtain rfl := eq_of_exclusive h hexclusive ((s.pc u).profile_nested.2 hu)
    rw [WriteHolds, ht] at hu
    exact absurd hu (by decide)

end Runs

end New

open AuroraLtfs.Threads

/-- In every interleaving of any number of threads, on either implementation: one
thread at most writes, and then none reads; `release_mrsw` releases what its caller
holds; and nobody gets the lock for writing while it is turned from a write lock into
a read lock.  With fewer than `2 ^ 32` threads, `read_count` is the number of readers
whenever `read_count_mutex` is free. -/
theorem mrsw_safe {ι : Type*} [Fintype ι] [DecidableEq ι] :
    (∀ s : State ι Old.Lock Old.Point, Reachable Old.run Old.start s → Old.Safe s) ∧
      ∀ s : State ι New.Lock New.Point, Reachable New.run New.start s → New.Safe s :=
  ⟨fun _ h => Old.safe_of_balanced (Old.balanced_of_reachable h),
    fun _ h => New.safe_of_balanced (New.balanced_of_reachable h)⟩

end AuroraLtfs.Mrsw
