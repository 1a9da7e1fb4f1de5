import AuroraLtfs.Fs.Rehang

/-!
# What create, unlink and rename change

The three changes the operations make to the tree: a new dentry is entered, a
dentry is taken out, a dentry is moved.  Each is a case of hanging one dentry
elsewhere.
-/

namespace AuroraLtfs.Fs

open AuroraLtfs.ParentChain

variable {s : LtfsIndex} {γ : Type*} (f : Dentry → γ)

/-! ## The pieces of a change -/

theorem modify_field {g : Dentry → Dentry} {d : ℕ}
    (hf : f (g (s.dentry d)) = f (s.dentry d)) (x : ℕ) :
    f ((s.modify d g).dentry x) = f (s.dentry x) := by
  rw [LtfsIndex.modify_dentry]
  split
  · next hx => rw [hx, hf]
  · rfl

theorem linkDir_field (hf : ∀ (x : Dentry) (n : ℤ), f (x.link n) = f x) (n : ℤ)
    (isdir : Bool) (dir x : ℕ) : f ((linkDir n isdir dir s).dentry x) = f (s.dentry x) := by
  unfold linkDir
  split
  · exact modify_field f (hf _ n) x
  · rfl

theorem linkDir_linkCount (n : ℤ) (isdir : Bool) (dir x : ℕ) :
    ((linkDir n isdir dir s).dentry x).linkCount =
      (s.dentry x).linkCount + if x = dir ∧ isdir = true then n else 0 := by
  unfold linkDir
  cases isdir with
  | false => simp
  | true =>
    simp only [if_true, and_true]
    rw [LtfsIndex.modify_dentry]
    split
    · next hx => rw [hx]; rfl
    · rw [add_zero]

section LinkDir

variable (n : ℤ) (isdir : Bool) (dir : ℕ)

@[simp]
theorem linkDir_next : (linkDir n isdir dir s).next = s.next := by
  unfold linkDir
  split <;> rfl

@[simp]
theorem linkDir_fileCount : (linkDir n isdir dir s).fileCount = s.fileCount := by
  unfold linkDir
  split <;> rfl

@[simp]
theorem linkDir_validBlocks : (linkDir n isdir dir s).validBlocks = s.validBlocks := by
  unfold linkDir
  split <;> rfl

end LinkDir

theorem fsAddKey_field (hf : ∀ (x : Dentry) (n : Name) (c : ℕ), f (x.addKey n c) = f x)
    (mem : Memory) (dir : ℕ) (name : Name) (d x : ℕ) :
    f ((fsAddKey mem dir name d s).dentry x) = f (s.dentry x) := by
  unfold fsAddKey
  split
  · exact modify_field f (hf _ name d) x
  · rfl

section AddKey

variable (mem : Memory) (dir : ℕ) (name : Name)

theorem fsAddKey_childList (d x : ℕ) :
    ((fsAddKey mem dir name d s).dentry x).childList =
      (s.dentry x).childList ++
        entriesAt d (if mem.linked then some (dir, name) else none) x := by
  unfold fsAddKey entriesAt
  cases mem.linked with
  | false => simp
  | true =>
    simp only [if_true]
    rw [LtfsIndex.modify_dentry]
    split
    · next hx => rw [hx]; rfl
    · rw [List.append_nil]

@[simp]
theorem fsAddKey_next (d : ℕ) : (fsAddKey mem dir name d s).next = s.next := by
  unfold fsAddKey
  split <;> rfl

@[simp]
theorem fsAddKey_fileCount (d : ℕ) : (fsAddKey mem dir name d s).fileCount = s.fileCount := by
  unfold fsAddKey
  split <;> rfl

@[simp]
theorem fsAddKey_validBlocks (d : ℕ) :
    (fsAddKey mem dir name d s).validBlocks = s.validBlocks := by
  unfold fsAddKey
  split <;> rfl

end AddKey

@[simp]
theorem countFile_dentry (n : ℤ) (isdir : Bool) :
    (s.countFile n isdir).dentry = s.dentry := by
  unfold LtfsIndex.countFile
  split <;> rfl

@[simp]
theorem countFile_next (n : ℤ) (isdir : Bool) : (s.countFile n isdir).next = s.next := by
  unfold LtfsIndex.countFile
  split <;> rfl

@[simp]
theorem countFile_validBlocks (n : ℤ) (isdir : Bool) :
    (s.countFile n isdir).validBlocks = s.validBlocks := by
  unfold LtfsIndex.countFile
  split <;> rfl

theorem countFile_fileCount (n : ℤ) (isdir : Bool) :
    (s.countFile n isdir).fileCount =
      s.fileCount + if isdir = true then 0 else n := by
  unfold LtfsIndex.countFile
  split
  · rw [add_zero]
  · rfl

/-! ## A new dentry -/

/-- The tree with a new dentry for `name` under `p`. -/
def entered (p : ℕ) (name : Name) (isdir readonly : Bool) (mem : Memory) (uid : ℕ)
    (s : LtfsIndex) : LtfsIndex :=
  fsAddKey mem p name s.next
    (linkDir 1 isdir p (s.allocate (newDentry p name isdir readonly uid)))

section Entered

variable {p : ℕ} {name : Name} {isdir readonly : Bool} {mem : Memory} {uid : ℕ}

theorem allocate_dentry_of_ne {x : ℕ} (hx : x ≠ s.next) (new : Dentry) :
    (s.allocate new).dentry x = s.dentry x := by
  exact Function.update_of_ne hx new s.dentry

theorem allocate_dentry_self (new : Dentry) : (s.allocate new).dentry s.next = new := by
  exact Function.update_self s.next new s.dentry

/-- A field that links and child lists do not touch. -/
theorem entered_field (hlink : ∀ (x : Dentry) (n : ℤ), f (x.link n) = f x)
    (hadd : ∀ (x : Dentry) (n : Name) (c : ℕ), f (x.addKey n c) = f x) (x : ℕ) :
    f ((entered p name isdir readonly mem uid s).dentry x) =
      f ((s.allocate (newDentry p name isdir readonly uid)).dentry x) :=
  (fsAddKey_field f hadd mem p name s.next x).trans
    (linkDir_field f hlink 1 isdir p x)

theorem entered_next : (entered p name isdir readonly mem uid s).next = s.next + 1 := by
  rw [entered, fsAddKey_next, linkDir_next]
  rfl

theorem entered_self (hlink : ∀ (x : Dentry) (n : ℤ), f (x.link n) = f x)
    (hadd : ∀ (x : Dentry) (n : Name) (c : ℕ), f (x.addKey n c) = f x) :
    f ((entered p name isdir readonly mem uid s).dentry s.next) =
      f (newDentry p name isdir readonly uid) := by
  rw [entered_field f hlink hadd, allocate_dentry_self]

theorem entered_of_ne (hlink : ∀ (x : Dentry) (n : ℤ), f (x.link n) = f x)
    (hadd : ∀ (x : Dentry) (n : Name) (c : ℕ), f (x.addKey n c) = f x) {x : ℕ}
    (hx : x ≠ s.next) :
    f ((entered p name isdir readonly mem uid s).dentry x) = f (s.dentry x) := by
  rw [entered_field f hlink hadd, allocate_dentry_of_ne hx]

/-- Where the new dentry hangs. -/
def newPlace (p : ℕ) (name : Name) (mem : Memory) : Place :=
  if mem.linked then some (p, name) else none

theorem newPlace_eq_some {q : ℕ} {n : Name} (h : newPlace p name mem = some (q, n)) :
    mem.linked = true ∧ q = p ∧ n = name := by
  unfold newPlace at h
  split at h
  · next hlinked =>
    rw [Option.some.injEq, Prod.mk.injEq] at h
    exact ⟨hlinked, h.1.symm, h.2.symm⟩
  · cases h

theorem entered_rehung (hs : Tree s) :
    Rehung s s.next (newPlace p name mem)
      (entered p name isdir readonly mem uid s) where
  lists := fun x => by
    have hout : without s.next (s.dentry x).childList = (s.dentry x).childList := by
      refine without_of_not_mem fun n hmem => ?_
      have hlt := hs.attached_lt (.inr ⟨x, n, hmem⟩)
      exact lt_irrefl _ hlt
    rw [entered, fsAddKey_childList, linkDir_field Dentry.childList fun _ _ => rfl, hout]
    by_cases hx : x = s.next
    · subst hx
      rw [allocate_dentry_self, hs.fresh_childList le_rfl]
      rfl
    · rw [allocate_dentry_of_ne hx]
      rfl
  name := fun _ => entered_of_ne Dentry.name (fun _ _ => rfl) fun _ _ _ => rfl
  parent := fun _ => entered_of_ne Dentry.parent (fun _ _ => rfl) fun _ _ _ => rfl
  isdir := fun _ => entered_of_ne Dentry.isdir (fun _ _ => rfl) fun _ _ _ => rfl
  deleted := fun _ => entered_of_ne Dentry.deleted (fun _ _ => rfl) fun _ _ _ => rfl
  freed := fun _ => entered_of_ne Dentry.freed (fun _ _ => rfl) fun _ _ _ => rfl
  usedBlocks := fun _ =>
    entered_of_ne Dentry.usedBlocks (fun _ _ => rfl) fun _ _ _ => rfl

/-- A dentry that does not exist yet is above nobody. -/
theorem Tree.not_above_next (hs : Tree s) (hp : p < s.next) :
    ¬ Above s.parent s.next p := by
  rintro ⟨k, hk⟩
  cases k with
  | zero => exact hp.ne (Option.some.inj hk)
  | succ k =>
    rw [climb_add k 1] at hk
    obtain ⟨z, _, hz⟩ := Option.bind_eq_some_iff.1 hk
    cases hpz : s.parent z with
    | none => rw [climb_succ_none hpz] at hz; cases hz
    | some q =>
      rw [climb_succ_some hpz, climb_zero, Option.some.injEq] at hz
      exact (hs.parent_lt hpz).ne hz

theorem entered_fits (hs : Tree s) (hp : Attached s p)
    (hdir : mem.linked = true → (s.dentry p).isdir = true)
    (hvacant : (s.dentry p).findKey name = none) :
    Fits s s.next (newPlace p name mem)
      (entered p name isdir readonly mem uid s) where
  ne_root := fun h => by
    have hlt := hs.attached_lt (.inl rfl)
    rw [h] at hlt
    exact lt_irrefl _ hlt
  next_le := by rw [entered_next]; exact Nat.le_succ _
  lt_next := by rw [entered_next]; exact Nat.lt_succ_self _
  parent_ok := fun q hq => by
    rw [entered_self Dentry.parent (fun _ _ => rfl) fun _ _ _ => rfl] at hq
    obtain rfl : p = q := Option.some.inj hq
    exact ⟨hs.attached_lt hp, hs.not_above_next (hs.attached_lt hp)⟩
  gone := fun hdel => by
    rw [entered_self Dentry.deleted (fun _ _ => rfl) fun _ _ _ => rfl] at hdel
    cases hdel
  nowhere := fun _ => hs.fresh_childList le_rfl
  isdir := fun hne => absurd (hs.fresh_childList le_rfl) hne
  attached := fun q n h => by
    obtain ⟨_, rfl, _⟩ := newPlace_eq_some h
    exact hp
  inDir := fun q n h => by
    obtain ⟨hlinked, rfl, _⟩ := newPlace_eq_some h
    exact hdir hlinked
  vacant := fun q n h c hmem => by
    obtain ⟨_, rfl, rfl⟩ := newPlace_eq_some h
    exact absurd hmem (Dentry.not_mem_of_findKey hvacant c)
  parent := fun q n h => by
    obtain ⟨_, rfl, _⟩ := newPlace_eq_some h
    exact entered_self Dentry.parent (fun _ _ => rfl) fun _ _ _ => rfl
  name := fun q n h => by
    obtain ⟨_, _, rfl⟩ := newPlace_eq_some h
    exact entered_self Dentry.name (fun _ _ => rfl) fun _ _ _ => rfl
  alive := fun _ _ _ => entered_self Dentry.deleted (fun _ _ => rfl) fun _ _ _ => rfl
  live := fun _ _ _ => entered_self Dentry.freed (fun _ _ => rfl) fun _ _ _ => rfl

end Entered

/-! ## A dentry taken out -/

/-- The tree without `d`, which stood under `p`. -/
def detached (p d : ℕ) (s : LtfsIndex) : LtfsIndex :=
  linkDir (-1) (s.dentry d).isdir p
    ((s.modify p (Dentry.delKey (s.dentry d).name)).modify d Dentry.unlinked)

section Detached

variable {p d : ℕ} {n : Name}

theorem detached_of_ne (hlink : ∀ (x : Dentry) (n : ℤ), f (x.link n) = f x)
    (hdel : ∀ (x : Dentry) (n : Name), f (x.delKey n) = f x) {x : ℕ} (hx : x ≠ d) :
    f ((detached p d s).dentry x) = f (s.dentry x) := by
  rw [detached, linkDir_field f hlink, LtfsIndex.modify_dentry_of_ne hx]
  exact modify_field f (hdel _ _) x

theorem detached_self (hlink : ∀ (x : Dentry) (n : ℤ), f (x.link n) = f x) (hpd : d ≠ p) :
    f ((detached p d s).dentry d) = f (s.dentry d).unlinked := by
  rw [detached, linkDir_field f hlink, LtfsIndex.modify_dentry_self,
    LtfsIndex.modify_dentry_of_ne hpd]

@[simp]
theorem detached_next : (detached p d s).next = s.next := by
  rw [detached, linkDir_next]
  rfl

section Detached

variable (hs : Tree s) (hmem : (n, d) ∈ (s.dentry p).childList)

include hs hmem

theorem Tree.entry_ne : d ≠ p := by
  rintro rfl
  have hparent : s.parent d = some d := hs.entry_parent hmem
  exact (hs.ends d).climb_ne_self Nat.one_pos (climb_succ_some hparent 0)

theorem Tree.entry_ne_root : d ≠ root := by
  rintro rfl
  have hparent := hs.entry_parent hmem
  rw [hs.root_parent] at hparent
  cases hparent

theorem detached_rehung : Rehung s d none (detached p d s) where
  lists := fun x => by
    have hdp := hs.entry_ne hmem
    have hlist := hs.delKey_childList hmem
    rw [detached, linkDir_field Dentry.childList fun _ _ => rfl]
    rw [modify_field Dentry.childList rfl, LtfsIndex.modify_dentry]
    unfold entriesAt
    rw [List.append_nil]
    split
    · next hx => rw [hx]; exact hlist
    · next hx =>
      exact (without_of_not_mem (hs.not_mem_of_parent_ne (hs.entry_parent hmem) hx)).symm
  name := fun _ => detached_of_ne Dentry.name (fun _ _ => rfl) fun _ _ => rfl
  parent := fun _ => detached_of_ne Dentry.parent (fun _ _ => rfl) fun _ _ => rfl
  isdir := fun _ => detached_of_ne Dentry.isdir (fun _ _ => rfl) fun _ _ => rfl
  deleted := fun _ => detached_of_ne Dentry.deleted (fun _ _ => rfl) fun _ _ => rfl
  freed := fun _ => detached_of_ne Dentry.freed (fun _ _ => rfl) fun _ _ => rfl
  usedBlocks := fun _ =>
    detached_of_ne Dentry.usedBlocks (fun _ _ => rfl) fun _ _ => rfl

theorem detached_fits (hleaf : (s.dentry d).childList = []) :
    Fits s d none (detached p d s) where
  ne_root := hs.entry_ne_root hmem
  next_le := detached_next.ge
  lt_next := by rw [detached_next]; exact hs.attached_lt (.inr ⟨p, n, hmem⟩)
  parent_ok := fun q hq => by
    rw [detached_self Dentry.parent (fun _ _ => rfl) (hs.entry_ne hmem)] at hq
    cases hq
  gone := fun _ => detached_self Dentry.parent (fun _ _ => rfl) (hs.entry_ne hmem)
  nowhere := fun _ => hleaf
  isdir := fun hne => absurd hleaf hne
  attached := fun _ _ h => nomatch h
  inDir := fun _ _ h => nomatch h
  vacant := fun _ _ h => nomatch h
  parent := fun _ _ h => nomatch h
  name := fun _ _ h => nomatch h
  alive := fun _ _ h => nomatch h
  live := fun _ _ h => nomatch h

end Detached

end Detached

/-! ## A dentry moved -/

/-- The tree with `d` moved from `fromdir` to `name` under `todir`. -/
def relocated (fromdir todir d : ℕ) (name : Name) (mem : Memory) (s : LtfsIndex) :
    LtfsIndex :=
  let isdir := (s.dentry d).isdir
  let s := s.modify fromdir (Dentry.delKey (s.dentry d).name)
  let s := linkDir 1 isdir todir (linkDir (-1) isdir fromdir s)
  fsAddKey mem todir name d (s.modify d (Dentry.moved todir name))

section Relocated

variable {fromdir todir d : ℕ} {n name : Name} {mem : Memory}

theorem relocated_of_ne (hlink : ∀ (x : Dentry) (n : ℤ), f (x.link n) = f x)
    (hadd : ∀ (x : Dentry) (n : Name) (c : ℕ), f (x.addKey n c) = f x)
    (hdel : ∀ (x : Dentry) (n : Name), f (x.delKey n) = f x) {x : ℕ} (hx : x ≠ d) :
    f ((relocated fromdir todir d name mem s).dentry x) = f (s.dentry x) := by
  rw [relocated, fsAddKey_field f hadd, LtfsIndex.modify_dentry_of_ne hx,
    linkDir_field f hlink, linkDir_field f hlink]
  exact modify_field f (hdel _ _) x

theorem relocated_self
    (hlink : ∀ (x : Dentry) (n : ℤ), f ((x.link n).moved todir name) = f (x.moved todir name))
    (hadd : ∀ (x : Dentry) (n : Name) (c : ℕ), f (x.addKey n c) = f x) (hd : d ≠ fromdir) :
    f ((relocated fromdir todir d name mem s).dentry d) =
      f ((s.dentry d).moved todir name) := by
  rw [relocated, fsAddKey_field f hadd, LtfsIndex.modify_dentry_self,
    linkDir_field (fun x => f (x.moved todir name)) hlink,
    linkDir_field (fun x => f (x.moved todir name)) hlink,
    LtfsIndex.modify_dentry_of_ne hd]

theorem relocated_field (s : LtfsIndex) (hd : d ≠ fromdir)
    (hlink : ∀ (x : Dentry) (n : ℤ), f (x.link n) = f x)
    (hadd : ∀ (x : Dentry) (n : Name) (c : ℕ), f (x.addKey n c) = f x)
    (hdel : ∀ (x : Dentry) (n : Name), f (x.delKey n) = f x)
    (hmove : ∀ (x : Dentry) (p : ℕ) (n : Name), f (x.moved p n) = f x) (x : ℕ) :
    f ((relocated fromdir todir d name mem s).dentry x) = f (s.dentry x) := by
  by_cases hx : x = d
  · subst hx
    rw [relocated_self f (fun _ _ => by rw [hmove, hlink, hmove]) hadd hd, hmove]
  · exact relocated_of_ne f hlink hadd hdel hx

@[simp]
theorem relocated_next : (relocated fromdir todir d name mem s).next = s.next := by
  simp [relocated]

theorem relocated_rehung (hs : Tree s) (hmem : (n, d) ∈ (s.dentry fromdir).childList) :
    Rehung s d (newPlace todir name mem)
      (relocated fromdir todir d name mem s) where
  lists := fun x => by
    have hlist := hs.delKey_childList hmem
    rw [relocated, fsAddKey_childList]
    refine congrArg (· ++ _) ?_
    rw [modify_field Dentry.childList rfl, linkDir_field Dentry.childList fun _ _ => rfl,
      linkDir_field Dentry.childList fun _ _ => rfl, LtfsIndex.modify_dentry]
    split
    · next hx => rw [hx]; exact hlist
    · next hx =>
      exact (without_of_not_mem (hs.not_mem_of_parent_ne (hs.entry_parent hmem) hx)).symm
  name := fun _ =>
    relocated_of_ne Dentry.name (fun _ _ => rfl) (fun _ _ _ => rfl) fun _ _ => rfl
  parent := fun _ =>
    relocated_of_ne Dentry.parent (fun _ _ => rfl) (fun _ _ _ => rfl) fun _ _ => rfl
  isdir := fun _ =>
    relocated_of_ne Dentry.isdir (fun _ _ => rfl) (fun _ _ _ => rfl) fun _ _ => rfl
  deleted := fun _ =>
    relocated_of_ne Dentry.deleted (fun _ _ => rfl) (fun _ _ _ => rfl) fun _ _ => rfl
  freed := fun _ =>
    relocated_of_ne Dentry.freed (fun _ _ => rfl) (fun _ _ _ => rfl) fun _ _ => rfl
  usedBlocks := fun _ =>
    relocated_of_ne Dentry.usedBlocks (fun _ _ => rfl) (fun _ _ _ => rfl) fun _ _ => rfl

theorem relocated_fits (hs : Tree s) (hmem : (n, d) ∈ (s.dentry fromdir).childList)
    (hto : Attached s todir) (hdir : mem.linked = true → (s.dentry todir).isdir = true)
    (hloop : ¬ Above s.parent d todir)
    (hvacant : ∀ c, (name, c) ∈ (s.dentry todir).childList → c = d)
    (hlost : mem.linked = false → (s.dentry d).childList = []) :
    Fits s d (newPlace todir name mem)
      (relocated fromdir todir d name mem s) where
  ne_root := hs.entry_ne_root hmem
  next_le := relocated_next.ge
  lt_next := by rw [relocated_next]; exact hs.attached_lt (.inr ⟨fromdir, n, hmem⟩)
  parent_ok := fun q hq => by
    rw [relocated_self Dentry.parent (fun _ _ => rfl) (fun _ _ _ => rfl)
      (hs.entry_ne hmem)] at hq
    obtain rfl : todir = q := Option.some.inj hq
    exact ⟨hs.attached_lt hto, hloop⟩
  gone := fun hdel => by
    rw [relocated_self Dentry.deleted (fun _ _ => rfl) (fun _ _ _ => rfl)
      (hs.entry_ne hmem)] at hdel
    have halive := hs.entry_deleted hmem
    rw [show ((s.dentry d).moved todir name).deleted = (s.dentry d).deleted from rfl,
      halive] at hdel
    cases hdel
  nowhere := fun h => by
    refine hlost ?_
    unfold newPlace at h
    split at h
    · cases h
    · next hlinked => simpa using hlinked
  isdir := fun hne =>
    (relocated_self Dentry.isdir (fun _ _ => rfl) (fun _ _ _ => rfl)
      (hs.entry_ne hmem)).trans (hs.owner_isdir hne)
  attached := fun q m h => by
    obtain ⟨_, rfl, _⟩ := newPlace_eq_some h
    exact hto
  inDir := fun q m h => by
    obtain ⟨hlinked, rfl, _⟩ := newPlace_eq_some h
    exact hdir hlinked
  vacant := fun q m h c hc => by
    obtain ⟨_, rfl, rfl⟩ := newPlace_eq_some h
    exact hvacant c hc
  parent := fun q m h => by
    obtain ⟨_, rfl, _⟩ := newPlace_eq_some h
    exact relocated_self Dentry.parent (fun _ _ => rfl) (fun _ _ _ => rfl)
      (hs.entry_ne hmem)
  name := fun q m h => by
    obtain ⟨_, _, rfl⟩ := newPlace_eq_some h
    exact relocated_self Dentry.name (fun _ _ => rfl) (fun _ _ _ => rfl) (hs.entry_ne hmem)
  alive := fun _ _ _ =>
    (relocated_self Dentry.deleted (fun _ _ => rfl) (fun _ _ _ => rfl)
      (hs.entry_ne hmem)).trans (hs.entry_deleted hmem)
  live := fun _ _ _ =>
    (relocated_self Dentry.freed (fun _ _ => rfl) (fun _ _ _ => rfl)
      (hs.entry_ne hmem)).trans (hs.entry_freed hmem)

end Relocated

end AuroraLtfs.Fs
