import AuroraLtfs.Lib.Threads

/-!
# The reader-writer lock on mutexes

`MultiReaderSingleWriter` of `ltfs_locking_old.h`, statement by statement.  The
mutexes are binary semaphores, which any thread may unlock: the first reader locks
`reading_mutex` and the last one unlocks it.  `read_count` is a 32-bit counter, and
`writer` and `long_lock` are flags that no mutex protects.

The invariant (`Balanced`) counts the threads at the statements where they own one
of the mutexes.  Threads exclude each other however many there are; the counter is
the number of readers as long as there are fewer than `2 ^ 32` threads.
-/

namespace AuroraLtfs.Mrsw

/-- How a thread holds the lock. -/
inductive Mode where
  | read
  | write
  deriving DecidableEq, Repr

namespace Old

open AuroraLtfs.Threads

inductive Mutex where
  | writeExclusive
  | reading
  | readCount
  deriving DecidableEq, Repr

/-- `struct MultiReaderSingleWriter`. -/
structure Lock where
  writeExclusiveMutex : Bool
  readingMutex : Bool
  readCountMutex : Bool
  readCount : ℕ
  writer : Bool
  longLock : Bool
  deriving DecidableEq, Repr

/-- `init_mrsw`. -/
def initMrsw : Lock := ⟨false, false, false, 0, false, false⟩

/-- Where a thread is: outside of the functions, where it holds nothing (`idle`),
a read lock or a write lock, or in front of a statement of a function.  A thread in
`release_mrsw` carries along how it holds the lock, which the code does not know. -/
inductive Point where
  | idle
  | reading
  | writing
  -- `try_acquirewrite_mrsw`
  | tryExclusive
  | tryReading
  | tryUndo
  | tryFlag
  -- `acquirewrite_mrsw`, and `acquirewrite_mrsw_long` for a long lock
  | writeExclusive (long : Bool)
  | writeReading (long : Bool)
  | writeFlag (long : Bool)
  | writeLong (long : Bool)
  -- `releasewrite_mrsw`
  | dropFlag
  | dropLong
  | dropReading
  | dropExclusive
  -- the gate of `acquireread_mrsw`
  | readExclusive
  | readLong
  | readPass
  -- the gate of `acquireread_mrsw_short`
  | shortTest
  | shortTry
  | shortAgain
  | shortPass
  -- the counting of a reader, for the two above and for `writetoread_mrsw`
  | enterLock (down : Bool)
  | enterCount (down : Bool)
  | enterReading (down : Bool)
  | enterUnlock (down : Bool)
  -- `releaseread_mrsw`
  | leaveLock
  | leaveCount
  | leaveReading
  | leaveUnlock
  -- `release_mrsw`
  | releaseTest (held : Mode)
  -- `writetoread_mrsw`
  | downFlag
  | downLong
  | downReading
  | downExclusive
  deriving DecidableEq, Repr

namespace Lock

def locked (l : Lock) : Mutex → Bool
  | .writeExclusive => l.writeExclusiveMutex
  | .reading => l.readingMutex
  | .readCount => l.readCountMutex

def set (l : Lock) (value : Bool) : Mutex → Lock
  | .writeExclusive => { l with writeExclusiveMutex := value }
  | .reading => { l with readingMutex := value }
  | .readCount => { l with readCountMutex := value }

/-- `ltfs_mutex_lock`, which waits for the mutex. -/
def lock (l : Lock) (m : Mutex) (next : Point) : List (Lock × Point) :=
  if l.locked m then [] else [(l.set true m, next)]

def unlock (l : Lock) (m : Mutex) (next : Point) : List (Lock × Point) :=
  [(l.set false m, next)]

def trylock (l : Lock) (m : Mutex) (got busy : Point) : List (Lock × Point) :=
  if l.locked m then [(l, busy)] else [(l.set true m, got)]

end Lock

/-- The statements.  A thread releases only a lock it holds. -/
def run : Point → Lock → List (Lock × Point)
  | .idle, l => [(l, .tryExclusive), (l, .writeExclusive false),
      (l, .writeExclusive true), (l, .readExclusive), (l, .shortTest)]
  | .reading, l => [(l, .leaveLock), (l, .releaseTest .read)]
  | .writing, l => [(l, .dropFlag), (l, .releaseTest .write), (l, .downFlag)]
  | .tryExclusive, l => l.trylock .writeExclusive .tryReading .idle
  | .tryReading, l => l.trylock .reading .tryFlag .tryUndo
  | .tryUndo, l => l.unlock .writeExclusive .idle
  | .tryFlag, l => [({ l with writer := true }, .writing)]
  | .writeExclusive long, l => l.lock .writeExclusive (.writeReading long)
  | .writeReading long, l => l.lock .reading (.writeFlag long)
  | .writeFlag long, l => [({ l with writer := true }, .writeLong long)]
  | .writeLong long, l => [({ l with longLock := long }, .writing)]
  | .dropFlag, l => [({ l with writer := false }, .dropLong)]
  | .dropLong, l => [({ l with longLock := false }, .dropReading)]
  | .dropReading, l => l.unlock .reading .dropExclusive
  | .dropExclusive, l => l.unlock .writeExclusive .idle
  | .readExclusive, l => l.lock .writeExclusive .readLong
  | .readLong, l => [({ l with longLock := false }, .readPass)]
  | .readPass, l => l.unlock .writeExclusive (.enterLock false)
  | .shortTest, l => [(l, if l.longLock then .idle else .shortTry)]
  | .shortTry, l => l.trylock .writeExclusive .shortPass .shortAgain
  | .shortAgain, l => [(l, if l.longLock then .idle else .shortTry)]
  | .shortPass, l => l.unlock .writeExclusive (.enterLock false)
  | .enterLock down, l => l.lock .readCount (.enterCount down)
  | .enterCount down, l =>
    [({ l with readCount := (l.readCount + 1) % 2 ^ 32 }, .enterReading down)]
  | .enterReading down, l =>
    if l.readCount = 1 then l.lock .reading (.enterUnlock down)
    else [(l, .enterUnlock down)]
  | .enterUnlock down, l =>
    l.unlock .readCount (if down then .downExclusive else .reading)
  | .leaveLock, l => l.lock .readCount .leaveCount
  | .leaveCount, l =>
    -- an unsigned counter is at most 0 where it is 0
    if l.readCount = 0 then [(l, .leaveUnlock)]
    else [({ l with readCount := l.readCount - 1 }, .leaveReading)]
  | .leaveReading, l =>
    if l.readCount = 0 then l.unlock .reading .leaveUnlock
    else [(l, .leaveUnlock)]
  | .leaveUnlock, l => l.unlock .readCount .idle
  | .releaseTest _, l => [(l, if l.writer then .dropFlag else .leaveLock)]
  | .downFlag, l => [({ l with writer := false }, .downLong)]
  | .downLong, l => [({ l with longLock := false }, .downReading)]
  | .downReading, l => l.unlock .reading (.enterLock true)
  | .downExclusive, l => l.unlock .writeExclusive .reading

/-! ## What a thread has -/

/-- What a thread owns at a point of the functions.

`exclusive` and `counting` are `write_exclusive_mutex` and `read_count_mutex`, and
`flagged` says that it has set `writer`.  It `writes` from its lock of
`reading_mutex` to the unlock, and `reads` from where it is counted and
`reading_mutex` is locked for the readers to where it is counted out.  In between it
is `entering`, not knowing whether it is the first reader, or `leaving`. -/
structure Profile where
  exclusive : Bool := false
  counting : Bool := false
  flagged : Bool := false
  writes : Bool := false
  reads : Bool := false
  entering : Bool := false
  leaving : Bool := false
  deriving DecidableEq, Repr

namespace Point

def profile : Point → Profile
  | idle | tryExclusive | writeExclusive _ | readExclusive | shortTest | shortTry
  | shortAgain => {}
  | tryReading | tryUndo | writeReading _ | dropExclusive | readLong | readPass
  | shortPass => { exclusive := true }
  | tryFlag | writeFlag _ | dropLong | dropReading | downLong | downReading =>
    { exclusive := true, writes := true }
  | writing | writeLong _ | dropFlag | releaseTest .write | downFlag =>
    { exclusive := true, writes := true, flagged := true }
  | reading | releaseTest .read | leaveLock => { reads := true }
  | downExclusive => { exclusive := true, reads := true }
  | enterLock down => { exclusive := down }
  | enterCount down => { exclusive := down, counting := true }
  | enterReading down => { exclusive := down, counting := true, entering := true }
  | enterUnlock down => { exclusive := down, counting := true, reads := true }
  | leaveCount => { counting := true, reads := true }
  | leaveReading => { counting := true, leaving := true }
  | leaveUnlock => { counting := true }

/-- In `writetoread_mrsw`, between the write lock and the read lock. -/
def downgrading : Point → Bool
  | enterLock true | enterCount true | enterReading true => true
  | _ => false

end Point

/-- What the statements do to the lock and to what the thread has. -/
inductive Effect (l : Lock) (f : Profile) : Lock → Profile → Prop
  | quiet (long : Bool) : Effect l f { l with longLock := long } f
  | lockExclusive (free : l.writeExclusiveMutex = false) (had : f.exclusive = false) :
      Effect l f { l with writeExclusiveMutex := true } { f with exclusive := true }
  | unlockExclusive (had : f.exclusive = true) :
      Effect l f { l with writeExclusiveMutex := false } { f with exclusive := false }
  | lockCount (free : l.readCountMutex = false) (had : f.counting = false) :
      Effect l f { l with readCountMutex := true } { f with counting := true }
  | unlockCount (had : f.counting = true) :
      Effect l f { l with readCountMutex := false } { f with counting := false }
  | raise (exclusive : f.exclusive = true) (had : f.flagged = false) :
      Effect l f { l with writer := true } { f with flagged := true }
  | lower (had : f.flagged = true) :
      Effect l f { l with writer := false } { f with flagged := false }
  | take (free : l.readingMutex = false) (had : f.writes = false) :
      Effect l f { l with readingMutex := true } { f with writes := true }
  | give (had : f.writes = true) :
      Effect l f { l with readingMutex := false } { f with writes := false }
  | count (owns : f.counting = true)
      (had : f.reads = false ∧ f.entering = false ∧ f.leaving = false) :
      Effect l f { l with readCount := (l.readCount + 1) % 2 ^ 32 }
        { f with entering := true }
  | first (one : l.readCount = 1) (free : l.readingMutex = false)
      (owns : f.counting = true)
      (had : f.reads = false ∧ f.entering = true ∧ f.leaving = false) :
      Effect l f { l with readingMutex := true }
        { f with entering := false, reads := true }
  | join (more : l.readCount ≠ 1) (owns : f.counting = true)
      (had : f.reads = false ∧ f.entering = true ∧ f.leaving = false) :
      Effect l f l { f with entering := false, reads := true }
  | countOut (more : l.readCount ≠ 0) (owns : f.counting = true)
      (had : f.reads = true ∧ f.entering = false ∧ f.leaving = false) :
      Effect l f { l with readCount := l.readCount - 1 }
        { f with reads := false, leaving := true }
  | lost (none : l.readCount = 0) (owns : f.counting = true)
      (had : f.reads = true ∧ f.entering = false ∧ f.leaving = false) :
      Effect l f l { f with reads := false }
  | last (none : l.readCount = 0) (owns : f.counting = true)
      (had : f.reads = false ∧ f.entering = false ∧ f.leaving = true) :
      Effect l f { l with readingMutex := false } { f with leaving := false }
  | leave (more : l.readCount ≠ 0) (owns : f.counting = true)
      (had : f.reads = false ∧ f.entering = false ∧ f.leaving = true) :
      Effect l f l { f with leaving := false }

section Statements

variable {l l' : Lock} {p q : Point}

theorem mem_lock {m : Mutex} {next : Point} (h : (l', q) ∈ l.lock m next) :
    l.locked m = false ∧ l' = l.set true m ∧ q = next := by
  unfold Lock.lock at h
  split_ifs at h with hlocked
  · simp at h
  · simpa [hlocked] using h

theorem mem_unlock {m : Mutex} {next : Point} (h : (l', q) ∈ l.unlock m next) :
    l' = l.set false m ∧ q = next := by
  simpa [Lock.unlock] using h

theorem mem_trylock {m : Mutex} {got busy : Point} (h : (l', q) ∈ l.trylock m got busy) :
    (l.locked m = false ∧ l' = l.set true m ∧ q = got) ∨ l' = l ∧ q = busy := by
  unfold Lock.trylock at h
  split_ifs at h with hlocked
  · right
    simpa using h
  · left
    simpa [hlocked] using h

/-- `release_mrsw` finds the flag set just where its caller is the writer. -/
def Informed (l : Lock) (p : Point) : Prop :=
  ∀ held, p = .releaseTest held → l.writer = decide (held = .write)

theorem Effect.same (l : Lock) (f : Profile) : Effect l f l f := .quiet l.longLock

theorem run_effect (hinformed : Informed l p) (hrun : (l', q) ∈ run p l) :
    Effect l p.profile l' q.profile := by
  cases p with
  | idle =>
    simp only [run, List.mem_cons, Prod.mk.injEq, List.not_mem_nil, or_false] at hrun
    rcases hrun with ⟨rfl, rfl⟩ | ⟨rfl, rfl⟩ | ⟨rfl, rfl⟩ | ⟨rfl, rfl⟩ | ⟨rfl, rfl⟩ <;>
      exact .same _ _
  | reading =>
    simp only [run, List.mem_cons, Prod.mk.injEq, List.not_mem_nil, or_false] at hrun
    rcases hrun with ⟨rfl, rfl⟩ | ⟨rfl, rfl⟩ <;> exact .same _ _
  | writing =>
    simp only [run, List.mem_cons, Prod.mk.injEq, List.not_mem_nil, or_false] at hrun
    rcases hrun with ⟨rfl, rfl⟩ | ⟨rfl, rfl⟩ | ⟨rfl, rfl⟩ <;> exact .same _ _
  | tryExclusive | shortTry =>
    rcases mem_trylock hrun with ⟨hfree, rfl, rfl⟩ | ⟨rfl, rfl⟩
    · exact .lockExclusive hfree rfl
    · exact .same _ _
  | tryReading =>
    rcases mem_trylock hrun with ⟨hfree, rfl, rfl⟩ | ⟨rfl, rfl⟩
    · exact .take hfree rfl
    · exact .same _ _
  | writeExclusive long | readExclusive =>
    obtain ⟨hfree, rfl, rfl⟩ := mem_lock hrun
    exact .lockExclusive hfree rfl
  | writeReading long =>
    obtain ⟨hfree, rfl, rfl⟩ := mem_lock hrun
    exact .take hfree rfl
  | enterLock down | leaveLock =>
    obtain ⟨hfree, rfl, rfl⟩ := mem_lock hrun
    exact .lockCount hfree rfl
  | tryUndo | dropExclusive | readPass | shortPass | downExclusive =>
    obtain ⟨rfl, rfl⟩ := mem_unlock hrun
    exact .unlockExclusive rfl
  | dropReading | downReading =>
    obtain ⟨rfl, rfl⟩ := mem_unlock hrun
    exact .give rfl
  | enterUnlock down =>
    obtain ⟨rfl, rfl⟩ := mem_unlock hrun
    cases down <;> exact .unlockCount rfl
  | leaveUnlock =>
    obtain ⟨rfl, rfl⟩ := mem_unlock hrun
    exact .unlockCount rfl
  | tryFlag | writeFlag long =>
    obtain ⟨rfl, rfl⟩ := Prod.mk.inj (List.mem_singleton.1 hrun)
    exact .raise rfl rfl
  | dropFlag | downFlag =>
    obtain ⟨rfl, rfl⟩ := Prod.mk.inj (List.mem_singleton.1 hrun)
    exact .lower rfl
  | writeLong long | dropLong | readLong | downLong =>
    obtain ⟨rfl, rfl⟩ := Prod.mk.inj (List.mem_singleton.1 hrun)
    exact .quiet _
  | shortTest | shortAgain =>
    obtain ⟨rfl, rfl⟩ := Prod.mk.inj (List.mem_singleton.1 hrun)
    split_ifs <;> exact .same _ _
  | releaseTest held =>
    obtain ⟨rfl, rfl⟩ := Prod.mk.inj (List.mem_singleton.1 hrun)
    rw [hinformed held rfl]
    cases held <;> exact .same _ _
  | enterCount down =>
    obtain ⟨rfl, rfl⟩ := Prod.mk.inj (List.mem_singleton.1 hrun)
    exact .count rfl ⟨rfl, rfl, rfl⟩
  | enterReading down =>
    rw [run] at hrun
    split_ifs at hrun with hone
    · obtain ⟨hfree, rfl, rfl⟩ := mem_lock hrun
      exact .first hone hfree rfl ⟨rfl, rfl, rfl⟩
    · obtain ⟨rfl, rfl⟩ := Prod.mk.inj (List.mem_singleton.1 hrun)
      exact .join hone rfl ⟨rfl, rfl, rfl⟩
  | leaveCount =>
    rw [run] at hrun
    split_ifs at hrun with hnone
    · obtain ⟨rfl, rfl⟩ := Prod.mk.inj (List.mem_singleton.1 hrun)
      exact .lost hnone rfl ⟨rfl, rfl, rfl⟩
    · obtain ⟨rfl, rfl⟩ := Prod.mk.inj (List.mem_singleton.1 hrun)
      exact .countOut hnone rfl ⟨rfl, rfl, rfl⟩
  | leaveReading =>
    rw [run] at hrun
    split_ifs at hrun with hnone
    · obtain ⟨rfl, rfl⟩ := mem_unlock hrun
      exact .last hnone rfl ⟨rfl, rfl, rfl⟩
    · obtain ⟨rfl, rfl⟩ := Prod.mk.inj (List.mem_singleton.1 hrun)
      exact .leave hnone rfl ⟨rfl, rfl, rfl⟩

end Statements

/-! ## `reading_mutex` and the readers -/

/-- How `reading_mutex` and `read_count` go with the numbers of threads that write,
read, and are on the way in or out.  The counter may have wrapped to 0 where there
are too many threads; wherever it is not 0 it is right. -/
structure Group (total writers readers entering leaving count locked : ℕ) : Prop where
  writing : writers ≤ locked
  reading : 0 < readers → locked = 1 ∧ writers = 0
  counted : entering = 0 → leaving = 0 → count ≠ 0 →
    locked = 1 ∧ writers = 0 ∧ count = readers
  entered : 0 < entering → count ≠ 1 →
    locked = 1 ∧ writers = 0 ∧ (count = 0 ∨ count = readers + 1)
  left : 0 < leaving → locked = 1 ∧ writers = 0 ∧ count = readers
  bound : count < 2 ^ 32
  exact : total < 2 ^ 32 → count = readers + entering

namespace Group

variable {total w r e f c locked : ℕ}

/-- A writer locks the mutex. -/
theorem take (h : Group total w r e f c 0) : Group total (w + 1) r e f c 1 := by
  obtain ⟨hw, hr, hc, he, hf, hb, hx⟩ := h
  constructor <;> omega

/-- A writer unlocks it. -/
theorem give (h : Group total (w + 1) r e f c locked) (hlocked : locked ≤ 1) :
    Group total w r e f c 0 := by
  obtain ⟨hw, hr, hc, he, hf, hb, hx⟩ := h
  constructor <;> omega

/-- A reader counts itself. -/
theorem count (h : Group total w r 0 0 c locked) (htotal : r + 1 ≤ total) :
    Group total w r 1 0 ((c + 1) % 2 ^ 32) locked := by
  obtain ⟨hw, hr, hc, -, -, hb, hx⟩ := h
  constructor <;> omega

/-- The first reader locks the mutex. -/
theorem first (h : Group total w r 1 0 1 0) : Group total w (r + 1) 0 0 1 1 := by
  obtain ⟨hw, hr, -, -, -, hb, hx⟩ := h
  constructor <;> omega

/-- A later one finds it locked. -/
theorem join (h : Group total w r 1 0 c locked) (hmore : c ≠ 1) :
    Group total w (r + 1) 0 0 c locked := by
  obtain ⟨hw, -, -, he, -, hb, hx⟩ := h
  constructor <;> omega

/-- A reader counts itself out. -/
theorem countOut (h : Group total w (r + 1) 0 0 c locked) (hmore : c ≠ 0) :
    Group total w r 0 1 (c - 1) locked := by
  obtain ⟨hw, -, hc, -, -, hb, hx⟩ := h
  constructor <;> omega

/-- A reader that finds the counter wrapped. -/
theorem lost (h : Group total w (r + 1) 0 0 0 locked) : Group total w r 0 0 0 locked := by
  obtain ⟨hw, hr, -, -, -, hb, hx⟩ := h
  constructor <;> omega

/-- The last reader unlocks the mutex. -/
theorem last (h : Group total w r 0 1 0 locked) : Group total w r 0 0 0 0 := by
  obtain ⟨-, -, -, -, hf, hb, hx⟩ := h
  constructor <;> omega

/-- One that is not the last leaves it locked. -/
theorem leave (h : Group total w r 0 1 c locked) : Group total w r 0 0 c locked := by
  obtain ⟨hw, hr, -, -, hf, hb, hx⟩ := h
  constructor <;> omega

end Group

/-! ## The invariant -/

/-- How many threads have what. -/
structure Tally where
  exclusive : ℕ
  counting : ℕ
  flagged : ℕ
  writes : ℕ
  reads : ℕ
  entering : ℕ
  leaving : ℕ

/-- The lock agrees with what the threads have. -/
structure Balanced (total : ℕ) (n : Tally) (l : Lock) : Prop where
  exclusive : n.exclusive = l.writeExclusiveMutex.toNat
  counting : n.counting = l.readCountMutex.toNat
  flagged : n.flagged = l.writer.toNat
  group : Group total n.writes n.reads n.entering n.leaving l.readCount
    l.readingMutex.toNat

/-- A thread goes from the profile `f` to `g`. -/
structure Moved (f g : Profile) (n n' : Tally) : Prop where
  exclusive : n'.exclusive + f.exclusive.toNat = n.exclusive + g.exclusive.toNat
  counting : n'.counting + f.counting.toNat = n.counting + g.counting.toNat
  flagged : n'.flagged + f.flagged.toNat = n.flagged + g.flagged.toNat
  writes : n'.writes + f.writes.toNat = n.writes + g.writes.toNat
  reads : n'.reads + f.reads.toNat = n.reads + g.reads.toNat
  entering : n'.entering + f.entering.toNat = n.entering + g.entering.toNat
  leaving : n'.leaving + f.leaving.toNat = n.leaving + g.leaving.toNat

/-- What is known about the other threads from what one of them has: with
`write_exclusive_mutex` it is the only one that may have set the flag, and with
`read_count_mutex` the only one on its way in or out. -/
structure Alone (total : ℕ) (n : Tally) (f : Profile) : Prop where
  flagged : f.exclusive = true → n.flagged = f.flagged.toNat
  entering : f.counting = true → n.entering = f.entering.toNat
  leaving : f.counting = true → n.leaving = f.leaving.toNat
  room : f.reads = false → n.reads + 1 ≤ total

/-- A step that concerns neither `reading_mutex` nor the readers. -/
theorem Group.kept {total c locked : ℕ} {n n' : Tally} {f g : Profile}
    (h : Group total n.writes n.reads n.entering n.leaving c locked)
    (hmoved : Moved f g n n') (hwrites : g.writes = f.writes) (hreads : g.reads = f.reads)
    (hentering : g.entering = f.entering) (hleaving : g.leaving = f.leaving) :
    Group total n'.writes n'.reads n'.entering n'.leaving c locked := by
  obtain ⟨-, -, -, h₄, h₅, h₆, h₇⟩ := hmoved
  rw [hwrites] at h₄
  rw [hreads] at h₅
  rw [hentering] at h₆
  rw [hleaving] at h₇
  rw [Nat.add_right_cancel h₄, Nat.add_right_cancel h₅, Nat.add_right_cancel h₆,
    Nat.add_right_cancel h₇]
  exact h

/-- A step that concerns neither of the other two mutexes, nor the flag. -/
theorem Balanced.regroup {total : ℕ} {n n' : Tally} {l : Lock} {f g : Profile}
    (h : Balanced total n l) (l' : Lock) (hmoved : Moved f g n n')
    (hprofile : g.exclusive = f.exclusive ∧ g.counting = f.counting ∧
      g.flagged = f.flagged)
    (hlock : l'.writeExclusiveMutex = l.writeExclusiveMutex ∧
      l'.readCountMutex = l.readCountMutex ∧ l'.writer = l.writer)
    (hgroup : Group total n'.writes n'.reads n'.entering n'.leaving l'.readCount
      l'.readingMutex.toNat) : Balanced total n' l' := by
  obtain ⟨h₁, h₂, h₃, -, -, -, -⟩ := hmoved
  rw [hprofile.1] at h₁
  rw [hprofile.2.1] at h₂
  rw [hprofile.2.2] at h₃
  refine ⟨?_, ?_, ?_, hgroup⟩
  · rw [Nat.add_right_cancel h₁, hlock.1, h.exclusive]
  · rw [Nat.add_right_cancel h₂, hlock.2.1, h.counting]
  · rw [Nat.add_right_cancel h₃, hlock.2.2, h.flagged]

/-- A step of a thread with `read_count_mutex`, which is the only one on its way in or
out: what it does to the group depends on the thread and on the number `k` of the other
readers only. -/
theorem Balanced.reader {total : ℕ} {n n' : Tally} {l : Lock} {f g : Profile}
    (h : Balanced total n l) (halone : Alone total n f) (l' : Lock)
    (hmoved : Moved f g n n') (owns : f.counting = true)
    (hprofile : g.exclusive = f.exclusive ∧ g.counting = f.counting ∧
      g.flagged = f.flagged) (hwrites : g.writes = f.writes)
    (hone : f.reads = false ∨ g.reads = false)
    (hlock : l'.writeExclusiveMutex = l.writeExclusiveMutex ∧
      l'.readCountMutex = l.readCountMutex ∧ l'.writer = l.writer)
    (hgroup : ∀ w k, (f.reads = false → k + 1 ≤ total) →
      Group total w (k + f.reads.toNat) f.entering.toNat f.leaving.toNat l.readCount
        l.readingMutex.toNat →
      Group total w (k + g.reads.toNat) g.entering.toNat g.leaving.toNat l'.readCount
        l'.readingMutex.toNat) : Balanced total n' l' := by
  refine h.regroup l' hmoved hprofile hlock ?_
  obtain ⟨k, hk, hk'⟩ : ∃ k, n.reads = k + f.reads.toNat ∧ n'.reads = k + g.reads.toNat := by
    have hreads := hmoved.reads
    rcases hone with hf | hg
    · rw [hf] at hreads ⊢
      exact ⟨n.reads, rfl, hreads⟩
    · rw [hg] at hreads ⊢
      exact ⟨n'.reads, hreads.symm, rfl⟩
  have he := hmoved.entering
  have hl := hmoved.leaving
  have hw := hmoved.writes
  rw [halone.entering owns, Nat.add_comm, Nat.add_left_cancel_iff] at he
  rw [halone.leaving owns, Nat.add_comm, Nat.add_left_cancel_iff] at hl
  rw [hwrites, Nat.add_right_cancel_iff] at hw
  rw [hw, hk', he, hl]
  refine hgroup n.writes k (fun hf => ?_) ?_
  · have hroom := halone.room hf
    omega
  · rw [← hk, ← halone.entering owns, ← halone.leaving owns]
    exact h.group

theorem Effect.balanced {total : ℕ} {n n' : Tally} {l l' : Lock} {f g : Profile}
    (heffect : Effect l f l' g) (h : Balanced total n l) (halone : Alone total n f)
    (hmoved : Moved f g n n') : Balanced total n' l' := by
  have hkept := h.group.kept hmoved
  have hregroup := h.regroup l' hmoved
  have hreader := h.reader halone l' hmoved
  obtain ⟨hexclusive, hcounting, hflagged, hgroup⟩ := h
  obtain ⟨h₁, h₂, h₃, h₄, h₅, h₆, h₇⟩ := hmoved
  have hlocked := l.readingMutex.toNat_le
  cases heffect with
  | quiet long =>
    exact hregroup ⟨rfl, rfl, rfl⟩ ⟨rfl, rfl, rfl⟩ (hkept rfl rfl rfl rfl)
  | lockExclusive free had =>
    rw [free] at hexclusive
    exact ⟨num_taken h₁ had hexclusive, (Nat.add_right_cancel h₂).trans hcounting,
      (Nat.add_right_cancel h₃).trans hflagged, hkept rfl rfl rfl rfl⟩
  | unlockExclusive had =>
    have hle := hexclusive.trans_le l.writeExclusiveMutex.toNat_le
    exact ⟨num_given h₁ had hle, (Nat.add_right_cancel h₂).trans hcounting,
      (Nat.add_right_cancel h₃).trans hflagged, hkept rfl rfl rfl rfl⟩
  | lockCount free had =>
    rw [free] at hcounting
    exact ⟨(Nat.add_right_cancel h₁).trans hexclusive, num_taken h₂ had hcounting,
      (Nat.add_right_cancel h₃).trans hflagged, hkept rfl rfl rfl rfl⟩
  | unlockCount had =>
    have hle := hcounting.trans_le l.readCountMutex.toNat_le
    exact ⟨(Nat.add_right_cancel h₁).trans hexclusive, num_given h₂ had hle,
      (Nat.add_right_cancel h₃).trans hflagged, hkept rfl rfl rfl rfl⟩
  | raise exclusive had =>
    have hnone := halone.flagged exclusive
    rw [had] at hnone
    exact ⟨(Nat.add_right_cancel h₁).trans hexclusive,
      (Nat.add_right_cancel h₂).trans hcounting, num_taken h₃ had hnone,
      hkept rfl rfl rfl rfl⟩
  | lower had =>
    have hle := hflagged.trans_le l.writer.toNat_le
    exact ⟨(Nat.add_right_cancel h₁).trans hexclusive,
      (Nat.add_right_cancel h₂).trans hcounting, num_given h₃ had hle,
      hkept rfl rfl rfl rfl⟩
  | take free had =>
    refine hregroup ⟨rfl, rfl, rfl⟩ ⟨rfl, rfl, rfl⟩ ?_
    simp only [had, free, Bool.toNat_false, Bool.toNat_true, Nat.add_zero,
      Nat.add_right_cancel_iff] at h₄ h₅ h₆ h₇ hgroup ⊢
    rw [h₄, h₅, h₆, h₇]
    exact hgroup.take
  | give had =>
    refine hregroup ⟨rfl, rfl, rfl⟩ ⟨rfl, rfl, rfl⟩ ?_
    simp only [had, Bool.toNat_false, Bool.toNat_true, Nat.add_zero,
      Nat.add_right_cancel_iff] at h₄ h₅ h₆ h₇ ⊢
    rw [← h₄] at hgroup
    rw [h₅, h₆, h₇]
    exact hgroup.give hlocked
  | count owns had =>
    refine hreader owns ⟨rfl, rfl, rfl⟩ rfl (.inl had.1) ⟨rfl, rfl, rfl⟩
      fun w k hroom hk => ?_
    simp only [had] at hk ⊢
    exact hk.count (hroom had.1)
  | first one free owns had =>
    refine hreader owns ⟨rfl, rfl, rfl⟩ rfl (.inl had.1) ⟨rfl, rfl, rfl⟩
      fun w k _ hk => ?_
    simp only [had, free, one] at hk ⊢
    exact hk.first
  | join more owns had =>
    refine hreader owns ⟨rfl, rfl, rfl⟩ rfl (.inl had.1) ⟨rfl, rfl, rfl⟩
      fun w k _ hk => ?_
    simp only [had] at hk ⊢
    exact hk.join more
  | countOut more owns had =>
    refine hreader owns ⟨rfl, rfl, rfl⟩ rfl (.inr rfl) ⟨rfl, rfl, rfl⟩
      fun w k _ hk => ?_
    simp only [had] at hk ⊢
    exact hk.countOut more
  | lost none owns had =>
    refine hreader owns ⟨rfl, rfl, rfl⟩ rfl (.inr rfl) ⟨rfl, rfl, rfl⟩
      fun w k _ hk => ?_
    simp only [had, none] at hk ⊢
    exact hk.lost
  | last none owns had =>
    refine hreader owns ⟨rfl, rfl, rfl⟩ rfl (.inl had.1) ⟨rfl, rfl, rfl⟩
      fun w k _ hk => ?_
    simp only [had, none] at hk ⊢
    exact hk.last
  | leave more owns had =>
    refine hreader owns ⟨rfl, rfl, rfl⟩ rfl (.inl had.1) ⟨rfl, rfl, rfl⟩
      fun w k _ hk => ?_
    simp only [had] at hk ⊢
    exact hk.leave

/-! ## Whole runs -/

section Runs

variable {ι : Type*} [Fintype ι] {pc : ι → Point} {t u : ι}

/-- The number of threads with a profile of the class. -/
def having (c : Profile → Bool) (pc : ι → Point) : ℕ := num (fun p => c p.profile) pc

def tally (pc : ι → Point) : Tally where
  exclusive := having Profile.exclusive pc
  counting := having Profile.counting pc
  flagged := having Profile.flagged pc
  writes := having Profile.writes pc
  reads := having Profile.reads pc
  entering := having Profile.entering pc
  leaving := having Profile.leaving pc

theorem having_update [DecidableEq ι] (c : Profile → Bool) (pc : ι → Point) (t : ι)
    (q : Point) : having c (Function.update pc t q) + (c (pc t).profile).toNat =
      having c pc + (c q.profile).toNat :=
  num_update _ pc t q

theorem tally_moved [DecidableEq ι] (pc : ι → Point) (t : ι) (q : Point) :
    Moved (pc t).profile q.profile (tally pc) (tally (Function.update pc t q)) where
  exclusive := having_update _ pc t q
  counting := having_update _ pc t q
  flagged := having_update _ pc t q
  writes := having_update _ pc t q
  reads := having_update _ pc t q
  entering := having_update _ pc t q
  leaving := having_update _ pc t q

/-- A thread sets the flag only as the writer, is the writer only with
`write_exclusive_mutex`, and on its way in or out only with `read_count_mutex`. -/
theorem Point.profile_nested (p : Point) :
    (p.profile.flagged = true → p.profile.writes = true) ∧
      (p.profile.writes = true → p.profile.exclusive = true) ∧
      (p.profile.entering = true → p.profile.counting = true) ∧
      (p.profile.leaving = true → p.profile.counting = true) := by
  cases p with
  | releaseTest held => cases held <;> decide
  | _ => simp [profile]

section Having

variable {c c' : Profile → Bool}

theorem having_pos (h : c (pc t).profile = true) : 0 < having c pc :=
  num_pos (P := fun p : Point => c p.profile) h

theorem having_mono (h : ∀ p : Point, c p.profile = true → c' p.profile = true)
    (pc : ι → Point) : having c pc ≤ having c' pc :=
  num_mono h pc

theorem having_of_unique (h : having c' pc ≤ 1) (ht : c' (pc t).profile = true)
    (hsub : ∀ p : Point, c p.profile = true → c' p.profile = true) :
    having c pc = (c (pc t).profile).toNat :=
  num_of_unique (P := fun p : Point => c p.profile) h ht hsub

end Having

variable {l : Lock}

section Exclusive

variable (h : Balanced (Fintype.card ι) (tally pc) l)

include h

/-- The thread with `write_exclusive_mutex` is the only one. -/
theorem eq_of_exclusive (ht : (pc t).profile.exclusive = true)
    (hu : (pc u).profile.exclusive = true) : t = u := by
  have hle : (tally pc).exclusive ≤ 1 := h.exclusive ▸ Bool.toNat_le _
  exact eq_of_num_le_one hle ht hu

theorem tally_alone (t : ι) : Alone (Fintype.card ι) (tally pc) (pc t).profile := by
  have hexclusive : (tally pc).exclusive ≤ 1 := h.exclusive ▸ Bool.toNat_le _
  have hcounting : (tally pc).counting ≤ 1 := h.counting ▸ Bool.toNat_le _
  refine ⟨fun ht => ?_, fun ht => ?_, fun ht => ?_, fun ht => ?_⟩
  · exact having_of_unique hexclusive ht fun p hp =>
      p.profile_nested.2.1 (p.profile_nested.1 hp)
  · exact having_of_unique hcounting ht fun p => p.profile_nested.2.2.1
  · exact having_of_unique hcounting ht fun p => p.profile_nested.2.2.2
  · exact num_lt_card (P := fun p : Point => p.profile.reads) ht

/-- While the lock is read, nobody writes and the flag is not set. -/
theorem writer_of_reads (ht : (pc t).profile.reads = true) :
    (tally pc).writes = 0 ∧ l.writer = false := by
  obtain ⟨-, hwriters⟩ := h.group.reading (having_pos ht)
  have hnested : (tally pc).flagged ≤ (tally pc).writes :=
    having_mono (fun p => p.profile_nested.1) pc
  refine ⟨hwriters, ?_⟩
  have hflagged := h.flagged
  cases hwriter : l.writer with
  | false => rfl
  | true =>
    rw [hwriter, Bool.toNat_true] at hflagged
    omega

theorem writer_of_flagged (ht : (pc t).profile.flagged = true) : l.writer = true := by
  have hpos : 0 < (tally pc).flagged := having_pos ht
  have hflagged := h.flagged
  cases hwriter : l.writer with
  | true => rfl
  | false =>
    rw [hwriter, Bool.toNat_false] at hflagged
    omega

theorem informed (t : ι) : Informed l (pc t) := by
  intro held hpc
  cases held with
  | read =>
    have ht : (pc t).profile.reads = true := by rw [hpc]; rfl
    exact (writer_of_reads h ht).2
  | write =>
    have ht : (pc t).profile.flagged = true := by rw [hpc]; rfl
    exact writer_of_flagged h ht

end Exclusive

/-- All threads at rest on a new lock. -/
def start : State ι Lock Point := ⟨initMrsw, fun _ => .idle⟩

theorem having_idle {c : Profile → Bool} (hc : c {} = false) :
    having c (fun _ : ι => Point.idle) = 0 := by
  have hcount := num_const (ι := ι) (fun p : Point => c p.profile) .idle
  rwa [if_neg (by simpa [Point.profile] using hc)] at hcount

theorem balanced_start (ι : Type*) [Fintype ι] :
    Balanced (Fintype.card ι) (tally (start (ι := ι)).pc) (start (ι := ι)).shared where
  exclusive := having_idle rfl
  counting := having_idle rfl
  flagged := having_idle rfl
  group := by
    simp only [tally, start, having_idle]
    constructor <;> simp [initMrsw]

variable [DecidableEq ι] {s : State ι Lock Point}

/-- The invariant of every interleaving. -/
theorem balanced_of_reachable (h : Reachable run start s) :
    Balanced (Fintype.card ι) (tally s.pc) s.shared := by
  refine h.invariant (P := fun s => Balanced (Fintype.card ι) (tally s.pc) s.shared)
    (balanced_start ι) ?_
  rintro s _ hs ⟨t, hrun⟩
  exact (run_effect (informed hs t) hrun).balanced hs (tally_alone hs t)
    (tally_moved s.pc t _)

/-- The thread holds the lock for writing. -/
def WriteHolds (s : State ι Lock Point) (t : ι) : Prop := (s.pc t).profile.writes = true

/-- The thread holds the lock for reading. -/
def ReadHolds (s : State ι Lock Point) (t : ι) : Prop := (s.pc t).profile.reads = true

/-- The thread is in `writetoread_mrsw`, between its write hold and its read
hold. -/
def Downgrading (s : State ι Lock Point) (t : ι) : Prop :=
  (s.pc t).downgrading = true

instance (s : State ι Lock Point) : DecidablePred (ReadHolds s) :=
  fun t => inferInstanceAs (Decidable ((s.pc t).profile.reads = true))

theorem Point.profile_of_downgrading {p : Point} (h : p.downgrading = true) :
    p.profile.exclusive = true ∧ p.profile.writes = false := by
  cases p with
  | enterLock down | enterCount down | enterReading down =>
    cases down
    · simp [downgrading] at h
    · exact ⟨rfl, rfl⟩
  | _ => simp [downgrading] at h

/-- What the lock promises. -/
structure Safe (s : State ι Lock Point) : Prop where
  oneWriter : ∀ t u, WriteHolds s t → WriteHolds s u → t = u
  excludes : ∀ t u, WriteHolds s t → ¬ReadHolds s u
  releases : ∀ t held, s.pc t = .releaseTest held → run (s.pc t) s.shared =
    [(s.shared, match held with
      | .write => .dropFlag
      | .read => .leaveLock)]
  counts : Fintype.card ι < 2 ^ 32 → s.shared.readCountMutex = false →
    s.shared.readCount = (Finset.univ.filter (ReadHolds s)).card
  downgrades : ∀ t u, Downgrading s t → ¬WriteHolds s u

omit [DecidableEq ι] in
theorem safe_of_balanced (h : Balanced (Fintype.card ι) (tally s.pc) s.shared) :
    Safe s := by
  refine ⟨?_, ?_, ?_, ?_, ?_⟩
  · intro t u ht hu
    exact eq_of_exclusive h ((s.pc t).profile_nested.2.1 ht)
      ((s.pc u).profile_nested.2.1 hu)
  · intro t u ht hu
    have hpos : 0 < (tally s.pc).writes := having_pos ht
    have hnone := (writer_of_reads h hu).1
    omega
  · intro t held hpc
    have hwriter := informed h t held hpc
    rw [hpc, run, hwriter]
    cases held <;> rfl
  · intro hcard hfree
    have hcounting := h.counting
    rw [hfree, Bool.toNat_false] at hcounting
    -- nobody is on the way in
    have hle : (tally s.pc).entering ≤ (tally s.pc).counting :=
      having_mono (fun p => p.profile_nested.2.2.1) s.pc
    have hexact := h.group.exact hcard
    have hreads : (Finset.univ.filter (ReadHolds s)).card = (tally s.pc).reads := rfl
    omega
  · intro t u ht hu
    obtain ⟨hexclusive, hwrites⟩ := Point.profile_of_downgrading ht
    obtain rfl := eq_of_exclusive h hexclusive ((s.pc u).profile_nested.2.1 hu)
    rw [WriteHolds, hwrites] at hu
    exact absurd hu (by decide)

end Runs

/-! ## Too many readers -/

section Wrapped

variable {ι : Type*} [DecidableEq ι] {s₀ : State ι Lock Point} {pc : ι → Point} {t : ι}

/-- A thread takes a read lock while the other threads rest or read. -/
theorem reachable_reading {locked : Bool} {c : ℕ}
    (h : Reachable run s₀ ⟨⟨false, locked, false, c, false, false⟩, pc⟩)
    (ht : pc t = .idle) (hfirst : (c + 1) % 2 ^ 32 = 1 → locked = false) :
    Reachable run s₀ ⟨⟨false, locked || decide ((c + 1) % 2 ^ 32 = 1), false,
      (c + 1) % 2 ^ 32, false, false⟩, Function.update pc t .reading⟩ := by
  have h₀ : Reachable run s₀ ⟨⟨false, locked, false, c, false, false⟩,
      Function.update pc t .idle⟩ := by
    rwa [← ht, Function.update_eq_self]
  have h₁ := h₀.goes ⟨false, locked, false, c, false, false⟩ .readExclusive (by simp [run])
  have h₂ := h₁.goes ⟨true, locked, false, c, false, false⟩ .readLong
    (List.mem_singleton_self _)
  have h₃ := h₂.goes _ _ (List.mem_singleton_self _)
  have h₄ := h₃.goes _ _ (List.mem_singleton_self _)
  have h₅ := h₄.goes ⟨false, locked, true, c, false, false⟩ (.enterCount false)
    (List.mem_singleton_self _)
  have h₆ := h₅.goes _ _ (List.mem_singleton_self _)
  have henter : ∀ d, (d = 1 → locked = false) →
      ((⟨false, locked || decide (d = 1), true, d, false, false⟩ : Lock),
        Point.enterUnlock false) ∈
        run (.enterReading false) ⟨false, locked, true, d, false, false⟩ := by
    intro d hd
    simp only [run]
    split_ifs with hone
    · simp [Lock.lock, Lock.locked, Lock.set, hd hone, hone]
    · simp [hone]
  have h₇ := h₆.goes _ _ (henter _ hfirst)
  exact h₇.goes _ _ (List.mem_singleton_self _)

end Wrapped

/-- The first `k` threads read. -/
def readers (k : ℕ) : State (Fin (2 ^ 32)) Lock Point where
  shared := ⟨false, decide (0 < k), false, k % 2 ^ 32, false, false⟩
  pc t := if t.val < k then .reading else .idle

theorem reachable_readers {k : ℕ} (hk : k ≤ 2 ^ 32) : Reachable run start (readers k) := by
  induction k with
  | zero => exact .start
  | succ k ih =>
    have hlt : k < 2 ^ 32 := hk
    have hone : (k % 2 ^ 32 + 1) % 2 ^ 32 = 1 ↔ k = 0 := by omega
    have hnext := reachable_reading (ih hlt.le) (t := ⟨k, hlt⟩) (if_neg (lt_irrefl k))
      fun h => decide_eq_false (by omega)
    have hshared : (readers (k + 1)).shared = ⟨false,
        decide (0 < k) || decide ((k % 2 ^ 32 + 1) % 2 ^ 32 = 1), false,
        (k % 2 ^ 32 + 1) % 2 ^ 32, false, false⟩ := by
      simp only [readers, Lock.mk.injEq, true_and, and_true]
      constructor
      · rw [← Bool.decide_or, decide_eq_decide]
        omega
      · omega
    have hpc : (readers (k + 1)).pc = Function.update (readers k).pc ⟨k, hlt⟩ .reading := by
      funext t
      by_cases h : t = ⟨k, hlt⟩
      · subst h
        rw [Function.update_self]
        exact if_pos k.lt_succ_self
      · have hne : t.val ≠ k := fun heq => h (Fin.ext heq)
        rw [Function.update_of_ne h]
        simp only [readers]
        congr 1
        exact propext (by omega)
    have hstate : readers (k + 1) = ⟨(readers (k + 1)).shared, (readers (k + 1)).pc⟩ := rfl
    rw [hstate, hshared, hpc]
    exact hnext

/-- With `2 ^ 32` readers the counter has wrapped. -/
theorem readCount_wraps :
    ∃ s : State (Fin (2 ^ 32)) Lock Point, Reachable run start s ∧
      s.shared.readCountMutex = false ∧ s.shared.readCount = 0 ∧
      (Finset.univ.filter (ReadHolds s)).card = 2 ^ 32 := by
  refine ⟨readers (2 ^ 32), reachable_readers le_rfl, rfl, rfl, ?_⟩
  have hall : ∀ t, ReadHolds (readers (2 ^ 32)) t := by
    intro t
    have hpc : (readers (2 ^ 32)).pc t = .reading := if_pos t.isLt
    rw [ReadHolds, hpc]
    rfl
  rw [Finset.filter_true_of_mem fun t _ => hall t, Finset.card_univ, Fintype.card_fin]

end Old

end AuroraLtfs.Mrsw
