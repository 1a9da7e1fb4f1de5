import AuroraLtfs.Lib.Runs

/-!
# The cache pool

`cache_manager.c` keeps the blocks of the I/O scheduler in a pool that grows by
doubling and shrinks when blocks are given back.  Memory for objects can always be
had; as many of them exist as the capacities count, so that a capacity, doubled, is
far from the end of a `size_t`.

The callers hold references to the objects that have been handed out.  As long as each
is given back once, and no object has as many as its 32-bit counter can count, the
counter is their number (`Inv`).
-/

namespace AuroraLtfs.Cache

/-- `struct cache_pool`.  The objects in `pool` are all alike. -/
structure CachePool where
  initialCapacity : ℕ
  maxCapacity : ℕ
  currentCapacity : ℕ
  pool : ℕ

def cacheManagerInit (initialCapacity maxCapacity : ℕ) : CachePool :=
  { initialCapacity := initialCapacity
    maxCapacity := maxCapacity
    currentCapacity := initialCapacity
    pool := initialCapacity }

def cacheManagerHasRoom (c : CachePool) : Bool :=
  !(c.pool = 0 && c.currentCapacity = c.maxCapacity)

/-- How many objects the pool is to have when there is no free one. -/
def newSize (c : CachePool) : ℕ :=
  if c.currentCapacity * 2 < c.maxCapacity then
    if c.currentCapacity ≠ 0 then c.currentCapacity * 2 else c.maxCapacity / 2
  else c.maxCapacity

/-- Whether there is an object, and the pool without it. -/
def cacheManagerAllocateObject (c : CachePool) : Bool × CachePool :=
  if c.pool ≠ 0 then (true, { c with pool := c.pool - 1 })
  else if c.currentCapacity = c.maxCapacity then (false, c)
  -- without a `last_object` the pool has not grown
  else if newSize c ≤ c.currentCapacity then (false, c)
  else
    (true, { c with
      currentCapacity := newSize c
      pool := newSize c - c.currentCapacity - 1 })

/-- An object that nobody refers to any more goes back to the pool, or is destroyed. -/
def disposeObject (c : CachePool) : CachePool :=
  if c.initialCapacity < c.currentCapacity then
    { c with currentCapacity := c.currentCapacity - 1 }
  else { c with pool := c.pool + 1 }

/-! ## The pool and its callers -/

/-- An object that has been handed out: its counter, and how many references to it the
callers really have. -/
structure CacheObject where
  refcount : ℕ
  references : ℕ

structure State where
  cache : CachePool
  objects : List CacheObject

/-- The calls.  `get` and `free` are about one of the objects. -/
inductive Call
  | allocate
  | get (i : ℕ)
  | free (i : ℕ)

/-- `cache_manager_get_object` -/
def CacheObject.get (o : CacheObject) : CacheObject :=
  ⟨(o.refcount + 1) % 2 ^ 32, o.references + 1⟩

/-- What `cache_manager_free_object` does to the counter. -/
def CacheObject.free (o : CacheObject) : CacheObject :=
  ⟨(o.refcount + (2 ^ 32 - 1)) % 2 ^ 32, o.references - 1⟩

def step : Call → State → State
  | .allocate, s =>
    match cacheManagerAllocateObject s.cache with
    | (false, c) => { s with cache := c }
    | (true, c) => ⟨c, s.objects ++ [⟨1, 1⟩]⟩
  | .get i, s =>
    match s.objects[i]? with
    | none => s
    | some o => { s with objects := s.objects.set i o.get }
  | .free i, s =>
    match s.objects[i]? with
    | none => s
    | some o =>
      if 0 < o.free.refcount then { s with objects := s.objects.set i o.free }
      else ⟨disposeObject s.cache, s.objects.eraseIdx i⟩

/-- A caller copies or gives back a reference that it has, and the counter has room for
one more. -/
def Proper (s : State) : Call → Prop
  | .allocate => True
  | .get i => ∃ o, s.objects[i]? = some o ∧ 0 < o.references ∧ o.references + 1 < 2 ^ 32
  | .free i => ∃ o, s.objects[i]? = some o ∧ 0 < o.references

def start (initialCapacity maxCapacity : ℕ) : State :=
  ⟨cacheManagerInit initialCapacity maxCapacity, []⟩

/-- The number of objects with references. -/
def State.outstanding (s : State) : ℕ := s.objects.countP fun o => 0 < o.references

/-- What the pool is to guarantee. -/
structure Bounded (s : State) : Prop where
  live : s.cache.pool + s.outstanding ≤ s.cache.maxCapacity
  capacity : s.cache.currentCapacity = s.cache.pool + s.outstanding
  exhausted : (cacheManagerAllocateObject s.cache).1 = false ↔
    s.outstanding = s.cache.maxCapacity
  room : cacheManagerHasRoom s.cache = (cacheManagerAllocateObject s.cache).1

/-! ## The invariant -/

/-- The counter of an object is the number of references to it. -/
def Counted (o : CacheObject) : Prop :=
  o.refcount = o.references ∧ 0 < o.references ∧ o.references < 2 ^ 32

structure Inv (initial max : ℕ) (s : State) : Prop where
  initialCapacity : s.cache.initialCapacity = initial
  maxCapacity : s.cache.maxCapacity = max
  capacity : s.cache.currentCapacity = s.cache.pool + s.objects.length
  above : initial ≤ s.cache.currentCapacity
  below : s.cache.currentCapacity ≤ max
  counted : ∀ o ∈ s.objects, Counted o

variable {initial max : ℕ} {s : State}

theorem Inv.outstanding (h : Inv initial max s) : s.outstanding = s.objects.length := by
  rw [State.outstanding, List.countP_eq_length]
  intro o ho
  simpa using (h.counted o ho).2.1

theorem inv_start (hle : initial ≤ max) : Inv initial max (start initial max) :=
  ⟨rfl, rfl, rfl, le_rfl, hle, by simp [start]⟩

theorem newSize_le (c : CachePool) : newSize c ≤ c.maxCapacity := by
  rw [newSize]
  split_ifs <;> omega

theorem Inv.allocate (h : Inv initial max s) : Inv initial max (step .allocate s) := by
  obtain ⟨hinitial, hmax, hcapacity, habove, hbelow, hcounted⟩ := h
  have hsize := newSize_le s.cache
  have hnew : ∀ o ∈ s.objects ++ [⟨1, 1⟩], Counted o := by
    intro o ho
    rcases List.mem_append.1 ho with ho | ho
    · exact hcounted o ho
    · rw [List.mem_singleton.1 ho]
      exact ⟨rfl, by norm_num, by norm_num⟩
  rw [step, cacheManagerAllocateObject]
  split_ifs with hfree hfull hstuck
  · refine ⟨hinitial, hmax, ?_, habove, hbelow, hnew⟩
    simp only [List.length_append, List.length_singleton]
    omega
  · exact ⟨hinitial, hmax, hcapacity, habove, hbelow, hcounted⟩
  · exact ⟨hinitial, hmax, hcapacity, habove, hbelow, hcounted⟩
  · refine ⟨hinitial, hmax, ?_, ?_, ?_, hnew⟩
    · simp only [List.length_append, List.length_singleton]
      omega
    · exact habove.trans (not_le.1 hstuck).le
    · exact hsize.trans hmax.le

theorem Inv.get {i : ℕ} (h : Inv initial max s) (hproper : Proper s (.get i)) :
    Inv initial max (step (.get i) s) := by
  obtain ⟨o, hi, -, hroom⟩ := hproper
  have hsame := (h.counted o (List.mem_of_getElem? hi)).1
  rw [step, hi]
  refine ⟨h.initialCapacity, h.maxCapacity, ?_, h.above, h.below, ?_⟩
  · rw [List.length_set]
    exact h.capacity
  · intro x hx
    rcases List.mem_or_eq_of_mem_set hx with hx | rfl
    · exact h.counted x hx
    · refine ⟨?_, Nat.succ_pos _, hroom⟩
      rw [CacheObject.get, hsame]
      exact Nat.mod_eq_of_lt hroom

theorem Inv.free {i : ℕ} (h : Inv initial max s) (hproper : Proper s (.free i)) :
    Inv initial max (step (.free i) s) := by
  obtain ⟨o, hi, hpos⟩ := hproper
  obtain ⟨hinitial, hmax, hcapacity, habove, hbelow, hcounted⟩ := h
  obtain ⟨hsame, -, hless⟩ := hcounted o (List.mem_of_getElem? hi)
  obtain ⟨hlt, -⟩ := List.getElem?_eq_some_iff.1 hi
  have hleft : o.free.refcount = o.references - 1 := by
    simp only [CacheObject.free, hsame]
    omega
  rw [step, hi]
  dsimp only
  split_ifs with hmore
  · refine ⟨hinitial, hmax, ?_, habove, hbelow, ?_⟩
    · rw [List.length_set]
      exact hcapacity
    · intro x hx
      rcases List.mem_or_eq_of_mem_set hx with hx | rfl
      · exact hcounted x hx
      · refine ⟨hleft, ?_, ?_⟩ <;> simp only [CacheObject.free] <;> omega
  · have hgone : ∀ x ∈ s.objects.eraseIdx i, Counted x :=
      fun x hx => hcounted x (List.mem_of_mem_eraseIdx hx)
    have hlength := List.length_eraseIdx_of_lt hlt
    rw [disposeObject]
    split_ifs with hshrink
    · refine ⟨hinitial, hmax, ?_, ?_, ?_, hgone⟩ <;> dsimp only <;> omega
    · refine ⟨hinitial, hmax, ?_, habove, hbelow, hgone⟩
      dsimp only
      omega

theorem Inv.kept (call : Call) (s : State) (h : Inv initial max s) (hproper : Proper s call) :
    Inv initial max (step call s) := by
  cases call with
  | allocate => exact h.allocate
  | get i => exact h.get hproper
  | free i => exact h.free hproper

/-! ## Whole runs -/

/-- Half of a maximum of 1 is no object. -/
theorem lt_newSize_iff {c : CachePool} (hless : c.currentCapacity < c.maxCapacity) :
    c.currentCapacity < newSize c ↔ ¬(c.currentCapacity = 0 ∧ c.maxCapacity = 1) := by
  rw [newSize]
  split_ifs <;> omega

theorem Inv.bounded (h : Inv initial max s) (hgrows : ¬(initial = 0 ∧ max = 1)) :
    Bounded s := by
  have houtstanding := h.outstanding
  obtain ⟨hinitial, hmax, hcapacity, habove, hbelow, -⟩ := h
  have hgrown := lt_newSize_iff (c := s.cache)
  rw [← houtstanding] at hcapacity
  refine ⟨by omega, hcapacity, ?_, ?_⟩
  · rw [cacheManagerAllocateObject]
    split_ifs <;> simp <;> omega
  · rw [cacheManagerAllocateObject, cacheManagerHasRoom]
    split_ifs with hfree hfull hstuck
    · simp [hfree]
    · simp [not_not.1 hfree, hfull]
    · omega
    · simp [hfull]

/-- Every proper run leaves the pool within its bounds after each call. -/
def AlwaysBounded (initial max : ℕ) : Prop :=
  ∀ calls, (∀ before call after, calls = before ++ call :: after →
      Proper (runSteps step before (start initial max)) call) →
    ∀ n, Bounded (runSteps step (calls.take n) (start initial max))

/-- The pool keeps its bounds unless it starts without an object and may have one
only. -/
theorem alwaysBounded_iff (hle : initial ≤ max) (hpos : 0 < max) :
    AlwaysBounded initial max ↔ ¬(initial = 0 ∧ max = 1) := by
  constructor
  · rintro hbounded ⟨rfl, rfl⟩
    have hexhausted := (hbounded [] (by simp) 0).exhausted.1 (by decide)
    exact absurd hexhausted (by decide)
  · intro hgrows calls hproper n
    exact (runSteps_invariant Inv.kept calls (inv_start hle) hproper n).bounded hgrows

theorem alwaysBounded_one_two : AlwaysBounded 1 2 :=
  (alwaysBounded_iff (by decide) (by decide)).2 (by decide)

/-- A pool for one object that starts without any has room, and does not hand one
out. -/
theorem allocate_fails_of_zero_one :
    (cacheManagerAllocateObject (start 0 1).cache).1 = false ∧
      (start 0 1).outstanding ≠ (start 0 1).cache.maxCapacity ∧
      cacheManagerHasRoom (start 0 1).cache = true := by
  decide

end AuroraLtfs.Cache
