import AuroraLtfs.Fs.Namespace

/-!
# The totals of the index

`file_count` is the number of files that can be reached from the root, and
`valid_blocks` the number of blocks they use.  Each call changes the totals by as
much as it changes what they count, except where a rename takes the place of a
file that uses blocks, where a file that has left the tree is counted again, and
where the volume cannot be locked to correct the total.
-/

namespace AuroraLtfs.Fs

variable {base : ℕ → ℕ} {refs : List ℕ} {s t : LtfsIndex} {F : Finset ℕ} {d : ℕ} {env : Env}
  {σ σ₀ : Session}

/-- `F` is the set of files of the tree. -/
def Lists (s : LtfsIndex) (F : Finset ℕ) : Prop :=
  ∀ d, d ∈ F ↔ Attached s d ∧ (s.dentry d).isdir = false

/-- The totals agree with the files of the tree. -/
structure Totals (s : LtfsIndex) (F : Finset ℕ) : Prop where
  lists : Lists s F
  count : s.fileCount = F.card
  blocks : s.validBlocks = ∑ d ∈ F, ((s.dentry d).usedBlocks : ℤ)

namespace Totals

theorem keep (hF : Totals s F) (hlists : Lists t F)
    (hused : ∀ x ∈ F, (t.dentry x).usedBlocks = (s.dentry x).usedBlocks)
    (hcount : t.fileCount = s.fileCount) (hblocks : t.validBlocks = s.validBlocks) :
    Totals t F where
  lists := hlists
  count := hcount.trans hF.count
  blocks := by
    rw [hblocks, hF.blocks]
    exact Finset.sum_congr rfl fun x hx => by rw [hused x hx]

theorem insert (hF : Totals s F) (hd : d ∉ F) (hlists : Lists t (insert d F))
    (hused : ∀ x, x ≠ d → (t.dentry x).usedBlocks = (s.dentry x).usedBlocks)
    (hcount : t.fileCount = s.fileCount + 1)
    (hblocks : t.validBlocks = s.validBlocks + (t.dentry d).usedBlocks) :
    Totals t (insert d F) where
  lists := hlists
  count := by
    rw [hcount, hF.count, Finset.card_insert_of_notMem hd]
    push_cast
    rfl
  blocks := by
    have hsame : ∑ x ∈ F, ((t.dentry x).usedBlocks : ℤ) =
        ∑ x ∈ F, ((s.dentry x).usedBlocks : ℤ) :=
      Finset.sum_congr rfl fun x hx => by rw [hused x (ne_of_mem_of_not_mem hx hd)]
    rw [hblocks, hF.blocks, Finset.sum_insert hd, hsame, add_comm]

theorem erase (hF : Totals s F) (hd : d ∈ F) (hlists : Lists t (F.erase d))
    (hused : ∀ x, x ≠ d → (t.dentry x).usedBlocks = (s.dentry x).usedBlocks)
    (hcount : t.fileCount = s.fileCount - 1)
    (hblocks : t.validBlocks = s.validBlocks - (s.dentry d).usedBlocks) :
    Totals t (F.erase d) where
  lists := hlists
  count := by
    rw [hcount, hF.count, ← Finset.card_erase_add_one hd]
    push_cast
    ring
  blocks := by
    have hsame : ∑ x ∈ F.erase d, ((t.dentry x).usedBlocks : ℤ) =
        ∑ x ∈ F.erase d, ((s.dentry x).usedBlocks : ℤ) :=
      Finset.sum_congr rfl fun x hx => by rw [hused x (Finset.ne_of_mem_erase hx)]
    rw [hblocks, hF.blocks, hsame, ← Finset.add_sum_erase F _ hd]
    ring

theorem same (hF : Totals s F) (htree : SameTree s t) (htotals : SameTotals s t) :
    Totals t F :=
  hF.keep
    (fun x => by rw [htree.attached, htree.isdir]; exact hF.lists x)
    (fun x _ => htotals.usedBlocks x) htotals.fileCount htotals.validBlocks

/-- The blocks of a file of the tree change together with the total. -/
theorem recounted (hF : Totals s F) (hplain : Plain s) (h : Recounted env base refs d s t)
    (hd : (t.dentry d).usedBlocks = (s.dentry d).usedBlocks ∨
      Attached s d ∧ env.blockLock = none) : Totals t F := by
  have hlists : Lists t F := fun x => by
    rw [h.tree.attached, h.tree.isdir]
    exact hF.lists x
  have hunused (heq : (t.dentry d).usedBlocks = (s.dentry d).usedBlocks) : Totals t F := by
    refine hF.keep hlists (fun x _ => ?_) h.fileCount ?_
    · by_cases hxd : x = d
      · rw [hxd, heq]
      · exact h.usedBlocks x hxd
    · rw [h.validBlocks, heq, sub_self, ite_self, add_zero]
  rcases hd with heq | ⟨hatt, hlock⟩
  · exact hunused heq
  · cases hdir : (s.dentry d).isdir with
    | true =>
      have hdir' : (t.dentry d).isdir = true := (h.tree.isdir d).trans hdir
      exact hunused ((h.plain hplain d hdir').2.trans (hplain d hdir).2.symm)
    | false =>
      have hmem : d ∈ F := (hF.lists d).2 ⟨hatt, hdir⟩
      refine ⟨hlists, h.fileCount.trans hF.count, ?_⟩
      have hsame : ∑ x ∈ F.erase d, ((t.dentry x).usedBlocks : ℤ) =
          ∑ x ∈ F.erase d, ((s.dentry x).usedBlocks : ℤ) :=
        Finset.sum_congr rfl fun x hx => by
          rw [h.usedBlocks x (Finset.ne_of_mem_erase hx)]
      rw [h.validBlocks, if_pos hlock, hF.blocks, ← Finset.add_sum_erase F _ hmem,
        ← Finset.add_sum_erase F _ hmem, hsame]
      ring

end Totals

/-! ## Changes of the tree -/

theorem Lists.same (hF : Lists s F) (h : SameTree s t) : Lists t F := by
  intro x
  rw [h.attached, h.isdir]
  exact hF x

theorem Lists.of_same (hF : Lists t F) (h : SameTree s t) : Lists s F := by
  intro x
  rw [← h.attached, ← h.isdir]
  exact hF x

theorem Lists.not_mem_of_isdir (hF : Lists s F) (hd : (s.dentry d).isdir = true) :
    d ∉ F := by
  intro hmem
  have hfile := ((hF d).1 hmem).2
  rw [hd] at hfile
  cases hfile

section Rehung

variable {place : Place}

theorem Rehung.lists_erase (h : Rehung s d place t) (hroot : d ≠ root) (hF : Lists s F)
    (hout : place = none ∨ (t.dentry d).isdir = true) : Lists t (F.erase d) := by
  intro x
  rw [Finset.mem_erase]
  by_cases hx : x = d
  · subst hx
    refine ⟨fun hne => absurd rfl hne.1, fun ⟨hatt, hfile⟩ => ?_⟩
    have hplace := (h.attached_self hroot).1 hatt
    rcases hout with hnone | hdir
    · rw [hnone] at hplace
      cases hplace
    · rw [hdir] at hfile
      cases hfile
  · rw [h.attached_of_ne hx, h.isdir x hx, ← hF x]
    exact ⟨fun hmem => hmem.2, fun hmem => ⟨hx, hmem⟩⟩

theorem Rehung.lists_insert (h : Rehung s d place t) (hroot : d ≠ root) (hF : Lists s F)
    (hin : place.isSome = true) (hfile : (t.dentry d).isdir = false) :
    Lists t (insert d F) := by
  intro x
  rw [Finset.mem_insert]
  by_cases hx : x = d
  · subst hx
    exact ⟨fun _ => ⟨(h.attached_self hroot).2 hin, hfile⟩, fun _ => .inl rfl⟩
  · rw [h.attached_of_ne hx, h.isdir x hx, ← hF x]
    exact ⟨fun hmem => hmem.resolve_left hx, .inr⟩

end Rehung

/-- The totals are right, and directories add nothing to them. -/
structure Balanced (s : LtfsIndex) : Prop where
  plain : Plain s
  totals : ∃ F, Totals s F

theorem Balanced.same (hb : Balanced s) (htree : SameTree s t)
    (htotals : SameTotals s t) : Balanced t := by
  obtain ⟨F, hF⟩ := hb.totals
  exact ⟨hb.plain.same htree htotals, F, hF.same htree htotals⟩

theorem Balanced.frame (hb : Balanced s) (h : Frame s t) : Balanced t :=
  hb.same h.sameTree h.sameTotals

theorem Balanced.recounted (hb : Balanced s) (h : Recounted env base refs d s t)
    (hd : (t.dentry d).usedBlocks = (s.dentry d).usedBlocks ∨
      Attached s d ∧ env.blockLock = none) : Balanced t := by
  obtain ⟨F, hF⟩ := hb.totals
  exact ⟨h.plain hb.plain, F, hF.recounted hb.plain h hd⟩

/-! ## New entries -/

section Create

variable {p : ℕ} {name : Name} {isdir readonly : Bool} {mem : Memory} {uid : ℕ}

theorem Lists.next_not_mem (hF : Lists s F) (hs : Tree s) : s.next ∉ F := by
  intro hmem
  exact lt_irrefl _ (hs.attached_lt ((hF s.next).1 hmem).1)

theorem entered_lists (hs : Tree s) (hF : Lists s F) :
    Lists (entered p name isdir readonly mem uid s)
      (if mem.linked && !isdir then insert s.next F else F) := by
  have hre : Rehung s s.next (newPlace p name mem)
    (entered p name isdir readonly mem uid s) := entered_rehung hs
  have hroot : s.next ≠ root := (hs.attached_lt (.inl rfl)).ne'
  have hisdir : ((entered p name isdir readonly mem uid s).dentry s.next).isdir = isdir :=
    entered_self Dentry.isdir (fun _ _ => rfl) fun _ _ _ => rfl
  split
  · next h =>
    rw [Bool.and_eq_true, Bool.not_eq_true'] at h
    refine hre.lists_insert hroot hF ?_ (hisdir.trans h.2)
    rw [newPlace, if_pos h.1]
    rfl
  · next h =>
    have hout : newPlace p name mem = none ∨ isdir = true := by
      cases hlinked : mem.linked with
      | false => exact .inl (by rw [newPlace, hlinked]; rfl)
      | true => exact .inr (by simpa [hlinked] using h)
    have herase := hre.lists_erase hroot hF (by rw [hisdir]; exact hout)
    rwa [Finset.erase_eq_of_notMem (hF.next_not_mem hs)] at herase

theorem entered_plain (hs : Plain s) : Plain (entered p name isdir readonly mem uid s) := by
  intro x
  by_cases hx : x = s.next
  · rw [hx, entered_self Dentry.Plain (fun _ _ => rfl) fun _ _ _ => rfl]
    intro _
    exact ⟨rfl, rfl⟩
  · rw [entered_of_ne Dentry.Plain (fun _ _ => rfl) (fun _ _ _ => rfl) hx]
    exact hs x

/-- A new dentry counts if it is a file and has its entry. -/
theorem Totals.newEntry (counts : Bool) (hF : Totals s F) (hs : Tree s)
    (hlists : Lists t (if counts then Insert.insert s.next F else F))
    (hused : ∀ x, x ≠ s.next → (t.dentry x).usedBlocks = (s.dentry x).usedBlocks)
    (hcount : t.fileCount = s.fileCount + if counts then 1 else 0)
    (hblocks : t.validBlocks =
      s.validBlocks + if counts then ((t.dentry s.next).usedBlocks : ℤ) else 0) :
    ∃ G, Totals t G := by
  have hnext := hF.lists.next_not_mem hs
  cases counts with
  | true => exact ⟨_, hF.insert hnext hlists hused hcount hblocks⟩
  | false =>
    rw [if_neg Bool.false_ne_true, add_zero] at hcount hblocks
    exact ⟨F, hF.keep hlists (fun x hx => hused x (ne_of_mem_of_not_mem hx hnext))
      hcount hblocks⟩

theorem entered_fileCount :
    (entered p name isdir readonly mem uid s).fileCount = s.fileCount := by
  rw [entered, fsAddKey_fileCount, linkDir_fileCount]
  rfl

theorem entered_validBlocks :
    (entered p name isdir readonly mem uid s).validBlocks = s.validBlocks := by
  rw [entered, fsAddKey_validBlocks, linkDir_validBlocks]
  rfl

theorem entered_balanced (hs : Tree s) (hb : Balanced s)
    (hcount : isdir = false → mem.failed = !mem.linked) :
    Balanced ((entered p name isdir readonly mem uid s).countFile
      (if mem.failed then 0 else 1) isdir) := by
  obtain ⟨F, hF⟩ := hb.totals
  obtain ⟨e, he⟩ : ∃ e, e = entered p name isdir readonly mem uid s := ⟨_, rfl⟩
  have hlists : Lists e _ := he ▸ entered_lists hs hF.lists
  rw [← he]
  refine ⟨fun x => ?_, hF.newEntry (mem.linked && !isdir) hs ?_ (fun x hx => ?_) ?_ ?_⟩
  · rw [countFile_dentry, he]
    exact entered_plain hb.plain x
  · exact hlists.same (SameTree.of_dentry (countFile_dentry _ _) (countFile_next _ _))
  · rw [countFile_dentry, he]
    exact entered_of_ne Dentry.usedBlocks (fun _ _ => rfl) (fun _ _ _ => rfl) hx
  · rw [countFile_fileCount, he, entered_fileCount]
    cases isdir with
    | true => simp
    | false =>
      rw [hcount rfl]
      cases mem.linked <;> rfl
  · have hnew : (e.dentry s.next).usedBlocks = 0 := by
      rw [he]
      exact entered_self Dentry.usedBlocks (fun _ _ => rfl) fun _ _ _ => rfl
    rw [countFile_validBlocks, countFile_dentry, hnew, Nat.cast_zero, ite_self, add_zero, he]
    exact entered_validBlocks

theorem CreateOutcome.balanced {r : Outcome FsError LtfsIndex ℕ} (hs : Tree s)
    (hb : Balanced s) (h : CreateOutcome base refs s p name isdir readonly mem r)
    (hcount : (s.dentry p).findKey name = none → isdir = false →
      mem.failed = !mem.linked) : Balanced r.2 := by
  cases h with
  | unchanged e u hu _ => exact hb.frame hu
  | entered uid s₁ u r hs₁ hp hvacant htree htotals _ _ =>
    have hnew : Balanced ((Fs.entered p name isdir readonly mem uid s₁).countFile
        (if mem.failed then 0 else 1) isdir) :=
      entered_balanced (hs.frame hs₁) (hb.frame hs₁) (hcount hvacant)
    refine hnew.same (SameTree.trans (SameTree.of_dentry ?_ ?_) htree) htotals
    · exact (countFile_dentry _ _).symm
    · exact (countFile_next _ _).symm

end Create

/-! ## The volume as it is mounted -/

theorem ltfsIndexAlloc_balanced (blocksize : ℕ) : Balanced (ltfsIndexAlloc blocksize) := by
  refine ⟨fun x => ?_, ∅, fun x => ?_, rfl, rfl⟩
  · by_cases hx : x = root
    · rw [hx]
      exact fun _ => ⟨rfl, rfl⟩
    · rw [ltfsIndexAlloc_dentry blocksize hx]
      exact fun _ => ⟨rfl, rfl⟩
  · refine ⟨fun hmem => absurd hmem (Finset.notMem_empty x), fun ⟨hatt, hfile⟩ => ?_⟩
    cases hatt with
    | inl hroot => rw [hroot] at hfile; cases hfile
    | inr hentry =>
      obtain ⟨p, n, hmem⟩ := hentry
      rw [ltfsIndexAlloc_childList] at hmem
      cases hmem

theorem Loaded.usedBlocks_of_isdir (obj : Loaded) (blocksize : ℕ)
    (hdir : obj.isdir = true) : obj.usedBlocks blocksize = 0 := by
  rw [Loaded.usedBlocks, fsGetUsedBlocks, obj.plain hdir]
  rfl

theorem loadDentry_balanced {p : ℕ} {obj : Loaded} (hs : Tree s) (hb : Balanced s) :
    Balanced (loadDentry p obj s) := by
  obtain ⟨F, hF⟩ := hb.totals
  obtain ⟨e, he⟩ : ∃ e, e = entered p obj.name obj.isdir obj.readonly {} obj.uid s :=
    ⟨_, rfl⟩
  have hlists : Lists e _ := he ▸ entered_lists hs hF.lists
  have hdentry := he ▸ loadDentry_dentry p obj s
  have hothers {x : ℕ} (hx : x ≠ s.next) : (loadDentry p obj s).dentry x = e.dentry x := by
    rw [hdentry, LtfsIndex.modify_dentry_of_ne hx]
  have hnew : (loadDentry p obj s).dentry s.next =
      Dentry.load obj (obj.usedBlocks s.blocksize) (e.dentry s.next) := by
    rw [hdentry, LtfsIndex.modify_dentry_self]
  have hblocks : (loadDentry p obj s).validBlocks =
      s.validBlocks + obj.usedBlocks s.blocksize := by
    show (LtfsIndex.countFile 1 obj.isdir _).validBlocks + _ = _
    rw [countFile_validBlocks]
    exact congrArg (· + (obj.usedBlocks s.blocksize : ℤ)) entered_validBlocks
  have hfiles : (loadDentry p obj s).fileCount =
      s.fileCount + if obj.isdir = true then 0 else 1 := by
    show (LtfsIndex.countFile 1 obj.isdir _).fileCount = _
    rw [countFile_fileCount]
    exact congrArg (· + if obj.isdir = true then (0 : ℤ) else 1) entered_fileCount
  refine ⟨fun x => ?_, hF.newEntry (!obj.isdir) hs ?_ (fun x hx => ?_) ?_ ?_⟩
  · by_cases hx : x = s.next
    · rw [hx, hnew]
      intro hdir
      have hisdir : obj.isdir = true := by
        rw [he] at hdir
        exact (entered_self Dentry.isdir (fun _ _ => rfl) fun _ _ _ => rfl).symm.trans hdir
      exact ⟨obj.plain hisdir, obj.usedBlocks_of_isdir _ hisdir⟩
    · rw [hothers hx, he]
      exact entered_plain hb.plain x
  · exact hlists.same (he ▸ loadDentry_sameTree p obj s)
  · rw [hothers hx, he]
    exact entered_of_ne Dentry.usedBlocks (fun _ _ => rfl) (fun _ _ _ => rfl) hx
  · rw [hfiles]
    cases obj.isdir <;> rfl
  · rw [hblocks, hnew]
    cases hdir : obj.isdir with
    | true => simp [obj.usedBlocks_of_isdir _ hdir]
    | false => rfl

theorem Mounted.balanced {blocksize : ℕ} (h : Mounted blocksize s) : Balanced s := by
  induction h with
  | alloc => exact ltfsIndexAlloc_balanced blocksize
  | load p obj s hm _ _ _ ih => exact loadDentry_balanced hm.tree ih

/-! ## Removed entries -/

section Unlink

variable {p : ℕ} {n : Name}

theorem detached_plain (hs : Plain s) (hpd : d ≠ p) : Plain (detached p d s) := by
  intro x
  by_cases hx : x = d
  · rw [hx, detached_self Dentry.Plain (fun _ _ => rfl) hpd]
    exact hs d
  · rw [detached_of_ne Dentry.Plain (fun _ _ => rfl) (fun _ _ => rfl) hx]
    exact hs x

theorem detached_fileCount : (detached p d s).fileCount = s.fileCount := by
  rw [detached, linkDir_fileCount]
  rfl

theorem detached_validBlocks : (detached p d s).validBlocks = s.validBlocks := by
  rw [detached, linkDir_validBlocks]
  rfl

/-- `s` after `d` has left it, as `ltfs_fsops_unlink` counts. -/
def unlinkedTotals (p d : ℕ) (s : LtfsIndex) : LtfsIndex :=
  ((detached p d s).countFile (-1) (s.dentry d).isdir).addBlocks
    (-(s.dentry d).usedBlocks)

theorem unlinkedTotals_dentry (p d : ℕ) (s : LtfsIndex) :
    (unlinkedTotals p d s).dentry = (detached p d s).dentry :=
  countFile_dentry (-1) (s.dentry d).isdir

theorem unlinkedTotals_sameTree (p d : ℕ) (s : LtfsIndex) :
    SameTree (unlinkedTotals p d s) (detached p d s) :=
  SameTree.of_dentry (unlinkedTotals_dentry p d s).symm
    (countFile_next (-1) (s.dentry d).isdir).symm

/-- A file that leaves the tree takes itself and its blocks out of the totals. -/
theorem unlinkedTotals_balanced (hs : Tree s) (hb : Balanced s)
    (hmem : (n, d) ∈ (s.dentry p).childList) : Balanced (unlinkedTotals p d s) := by
  obtain ⟨F, hF⟩ := hb.totals
  obtain ⟨t, ht⟩ : ∃ t, t = unlinkedTotals p d s := ⟨_, rfl⟩
  have hdentry : t.dentry = (detached p d s).dentry := ht ▸ unlinkedTotals_dentry p d s
  have hre := detached_rehung hs hmem
  have hlists : Lists t (F.erase d) := fun x => by
    rw [ht]
    exact (hre.lists_erase (hs.entry_ne_root hmem) hF.lists (.inl rfl)).of_same
      (unlinkedTotals_sameTree p d s) x
  have hothers (x : ℕ) (hx : x ≠ d) :
      (t.dentry x).usedBlocks = (s.dentry x).usedBlocks := by
    rw [hdentry]
    exact hre.usedBlocks x hx
  have hcount : t.fileCount = s.fileCount + if (s.dentry d).isdir then 0 else -1 := by
    rw [ht]
    show (LtfsIndex.countFile (-1) (s.dentry d).isdir _).fileCount = _
    rw [countFile_fileCount, detached_fileCount]
  have hblocks : t.validBlocks = s.validBlocks - (s.dentry d).usedBlocks := by
    rw [ht]
    show (LtfsIndex.countFile (-1) (s.dentry d).isdir _).validBlocks + _ = _
    rw [countFile_validBlocks, detached_validBlocks]
    exact (sub_eq_add_neg _ _).symm
  rw [← ht]
  refine ⟨fun x => ?_, F.erase d, ?_⟩
  · rw [hdentry]
    exact detached_plain hb.plain (hs.entry_ne hmem) x
  · cases hdir : (s.dentry d).isdir with
    | true =>
      have hnot := hF.lists.not_mem_of_isdir hdir
      rw [hdir, if_pos rfl, add_zero] at hcount
      rw [(hb.plain d hdir).2, Nat.cast_zero, sub_zero] at hblocks
      rw [Finset.erase_eq_of_notMem hnot] at hlists ⊢
      exact hF.keep hlists (fun x hx => hothers x (ne_of_mem_of_not_mem hx hnot))
        hcount hblocks
    | false =>
      rw [hdir, if_neg Bool.false_ne_true] at hcount
      exact hF.erase ((hF.lists d).2 ⟨.inr ⟨p, n, hmem⟩, hdir⟩) hlists hothers
        hcount hblocks

theorem UnlinkOutcome.balanced {r : Outcome FsError LtfsIndex Unit} (hs : Tree s)
    (hb : Balanced s) (h : UnlinkOutcome base refs s r) : Balanced r.2 := by
  cases h with
  | unchanged r u hu _ => exact hb.frame hu
  | removed p d n s₁ u hs₁ hmem hleaf htree htotals _ =>
    have hgone := unlinkedTotals_balanced (hs.frame hs₁) (hb.frame hs₁) hmem
    exact hgone.same ((unlinkedTotals_sameTree p d s₁).trans htree) htotals

end Unlink

/-! ## Moved entries -/

section Rename

variable {fromdir todir f : ℕ} {fromName toName : Name} {mem : Memory}

theorem Tree.findKey_eq (hs : Tree s) {p c : ℕ} {n : Name}
    (hmem : (n, c) ∈ (s.dentry p).childList) : (s.dentry p).findKey n = some c := by
  cases hfind : (s.dentry p).findKey n with
  | none => exact absurd hfind (Dentry.findKey_of_mem hmem)
  | some e => rw [hs.entry_unique (Dentry.mem_of_findKey hfind) hmem]

/-- A rename does not give back the blocks of the file it replaces. -/
theorem Replaced.balanced (h : Replaced s todir f toName t) (hs : Tree s)
    (hb : Balanced s)
    (hfree : ∀ x, (s.dentry todir).findKey toName = some x → x ≠ f →
      (s.dentry x).isdir = false → (s.dentry x).usedBlocks = 0) : Balanced t := by
  cases h with
  | nothing t ht => exact hb.frame ht
  | target x t hx hxf hleaf htree htotals =>
    have hgone := unlinkedTotals_balanced hs hb hx
    have hzero : (s.dentry x).usedBlocks = 0 := by
      cases hdir : (s.dentry x).isdir with
      | true => exact (hb.plain x hdir).2
      | false => exact hfree x (hs.findKey_eq hx) hxf hdir
    have hkeep : SameTotals (unlinkedTotals todir x s)
        ((detached todir x s).countFile (-1) (s.dentry x).isdir) := by
      refine .of_dentry rfl rfl ?_
      show _ = _ + -((s.dentry x).usedBlocks : ℤ)
      rw [hzero, Nat.cast_zero, neg_zero, add_zero]
    exact hgone.same ((unlinkedTotals_sameTree todir x s).trans htree) (hkeep.trans htotals)

theorem relocated_totals (s : LtfsIndex) (hf : f ≠ fromdir) :
    SameTotals s (relocated fromdir todir f toName mem s) := by
  refine ⟨relocated_field Dentry.usedBlocks s hf (fun _ _ => rfl) (fun _ _ _ => rfl)
    (fun _ _ => rfl) fun _ _ _ => rfl, relocated_field Dentry.extentlist s hf
    (fun _ _ => rfl) (fun _ _ _ => rfl) (fun _ _ => rfl) fun _ _ _ => rfl, ?_, ?_⟩
  · rw [relocated, fsAddKey_fileCount]
    exact (linkDir_fileCount _ _ _).trans (linkDir_fileCount _ _ _)
  · rw [relocated, fsAddKey_validBlocks]
    exact (linkDir_validBlocks _ _ _).trans (linkDir_validBlocks _ _ _)

theorem Moves.balanced (h : Moves s fromdir todir f) (hb : Balanced s)
    (hlinked : mem.linked = true) : Balanced (relocated fromdir todir f toName mem s) := by
  obtain ⟨n, hmem⟩ := h.entry
  obtain ⟨F, hF⟩ := hb.totals
  obtain ⟨u, hu⟩ : ∃ u, u = relocated fromdir todir f toName mem s := ⟨_, rfl⟩
  have hne := h.tree.entry_ne hmem
  have hroot := h.tree.entry_ne_root hmem
  have hre : Rehung s f (newPlace todir toName mem) u := hu ▸ relocated_rehung h.tree hmem
  have htotals : SameTotals s u := hu ▸ relocated_totals s hne
  have hisdir : (u.dentry f).isdir = (s.dentry f).isdir := by
    rw [hu]
    exact relocated_self Dentry.isdir (fun _ _ => rfl) (fun _ _ _ => rfl) hne
  have hlists : Lists u F := by
    cases hdir : (s.dentry f).isdir with
    | true =>
      have herase := hre.lists_erase hroot hF.lists (.inr (hisdir.trans hdir))
      rwa [Finset.erase_eq_of_notMem (hF.lists.not_mem_of_isdir hdir)] at herase
    | false =>
      have hin : f ∈ F := (hF.lists f).2 ⟨.inr ⟨fromdir, n, hmem⟩, hdir⟩
      have hins := hre.lists_insert hroot hF.lists
        (by rw [newPlace, if_pos hlinked]; rfl) (hisdir.trans hdir)
      rwa [Finset.insert_eq_of_mem hin] at hins
  rw [← hu]
  refine ⟨fun x hx => ?_, F, hF.keep hlists (fun x _ => htotals.usedBlocks x)
    htotals.fileCount htotals.validBlocks⟩
  rw [htotals.extentlist, htotals.usedBlocks]
  by_cases hxf : x = f
  · subst hxf
    exact hb.plain x (hisdir.symm.trans hx)
  · exact hb.plain x ((hre.isdir x hxf).symm.trans hx)

/-- What a rename of `f` may replace without upsetting the totals: itself, a
directory, or a file that uses no blocks. -/
def Replaces (s : LtfsIndex) (todir : ℕ) (toName : Name) (f : ℕ) : Prop :=
  ∀ x, (s.dentry todir).findKey toName = some x → x ≠ f →
    (s.dentry x).isdir = false → (s.dentry x).usedBlocks = 0

theorem Replaces.frame (h : Replaces s todir toName f) (hst : Frame s t) :
    Replaces t todir toName f := by
  intro x hx hxf hfile
  rw [hst.findKey] at hx
  rw [hst.isdir] at hfile
  rw [hst.usedBlocks]
  exact h x hx hxf hfile

theorem RenameOutcome.balanced {r : Outcome FsError LtfsIndex Unit} (hs : Tree s)
    (hb : Balanced s)
    (h : RenameOutcome base refs s fromdir todir fromName toName mem r)
    (hreplaced : (s.dentry todir).Sees mem.replacedKey toName)
    (hok : ∀ f, (s.dentry fromdir).findKey fromName = some f →
      mem.linked = true ∧ Replaces s todir toName f) : Balanced r.2 := by
  cases h with
  | unchanged e u hu _ _ => exact hb.frame hu
  | leaked x e u hu _ _ => exact hb.frame hu
  | stranded x s₁ u _ hkey hx _ _ _ => exact absurd hx (hreplaced.not_found hkey x)
  | stuck f s₁ v u hs₁ hfind hrep hu _ _ =>
    have hgone := hrep.balanced (hs.frame hs₁) (hb.frame hs₁) ((hok f hfind).2.frame hs₁)
    exact hgone.frame hu
  | moved f s₁ v u r hs₁ hfind hrep hmoves _ htree htotals _ _ =>
    obtain ⟨hlinked, hfree⟩ := hok f hfind
    have hgone := hrep.balanced (hs.frame hs₁) (hb.frame hs₁) (hfree.frame hs₁)
    exact (hmoves.balanced hgone hlinked).same htree htotals

end Rename

/-! ## Sessions -/

/-- `used` is the number of blocks `d` has been counted with already, or `d` is in
the tree and the volume can be locked to correct the total. -/
def Charged (env : Env) (d used : ℕ) (s : LtfsIndex) : Prop :=
  used = (s.dentry d).usedBlocks ∨ Attached s d ∧ env.blockLock = none

/-- The condition on a call, besides that of the name space: the count of files
follows the table, a rename does not replace a file that uses blocks, and a file
whose blocks are counted again is in the tree. -/
def Op.Counts (env : Env) : Op → LtfsIndex → Prop
  | .create path isdir _ _ mem _, s => ∀ norm p, env.admitCreate path = .ok norm →
      resolve env.keys s (fsSplitPath norm).1 root = some p →
      (s.dentry p).findKey (fsSplitPath norm).2 = none → isdir = false →
      mem.failed = !mem.linked
  | .rename source target mem, s => ∀ from_ to_ fromdir todir f,
      env.admitRename source target mem = .ok (from_, to_) →
      resolve env.keys s (fsSplitPath from_).1 root = some fromdir →
      resolve env.targetKeys s (fsSplitPath to_).1 root = some todir →
      (s.dentry fromdir).findKey (fsSplitPath from_).2 = some f →
      mem.linked = true ∧ Replaces s todir (fsSplitPath to_).2 f
  | .close d _ openWrite _ _, s => openWrite = true →
      Charged env d (fsGetUsedBlocks s.blocksize (s.dentry d)) s
  | .truncate d _ sched, s => Charged env d
      (fsGetUsedBlocks s.blocksize ((s.dentry d).extents sched.extentlist)) s
  | .truncatePath _ _ _, _ => env.blockLock = none
  | .openFile _ openWrite _ _, _ => openWrite = true → env.blockLock = none
  | _, _ => True

def Op.Regular (env : Env) (op : Op) (s : LtfsIndex) : Prop :=
  op.Proper env s ∧ op.Counts env s

theorem Session.through_balanced {r : Outcome FsError LtfsIndex Unit} (hb : Balanced σ.fs)
    (hr : Balanced r.2) : Balanced (σ.through d r).fs := by
  rw [Session.through]
  split
  · exact hr
  · exact hb

theorem OpenOutcome.balanced {openWrite : Bool} {r : Outcome FsError LtfsIndex ℕ}
    (hb : Balanced s) (h : OpenOutcome env openWrite base refs s r)
    (hlock : openWrite = true → env.blockLock = none) : Balanced r.2 := by
  cases h with
  | unchanged e t ht _ => exact hb.frame ht
  | refused d e t hwrite hd ht => exact hb.recounted ht (.inr ⟨hd, hlock hwrite⟩)
  | opened d t _ ht _ => exact hb.frame ht

theorem Balanced.closed {dirty openWrite useIosched : Bool} {sched : SchedReply}
    (hb : Balanced σ.fs) (hσ : WellKept σ)
    (hcharged : openWrite = true →
      Charged env d (fsGetUsedBlocks σ.fs.blocksize (σ.fs.dentry d)) σ.fs) :
    Balanced (σ.closed env d
      (ltfsFsopsClose env d dirty openWrite useIosched sched σ.fs)).fs := by
  obtain ⟨base, hc⟩ := hσ.counted
  rw [Session.closed]
  split
  · next hd =>
    obtain ⟨hclose, hused⟩ := ltfsFsopsClose_spec hσ.sound.tree
      (hc.perm (List.perm_cons_erase hd))
      (rfl : ltfsFsopsClose env d dirty openWrite useIosched sched σ.fs = _)
    refine hb.recounted hclose ?_
    rw [hused]
    split
    · next hwrite =>
      rw [Bool.and_eq_true] at hwrite
      exact hcharged hwrite.2
    · exact .inl rfl
  · exact hb

theorem Op.exec_balanced {op : Op} (hσ : WellKept σ) (hb : Balanced σ.fs)
    (hregular : op.Regular env σ.fs) : Balanced (op.exec env σ).fs := by
  obtain ⟨hproper, hop⟩ := hregular
  have hs := hσ.sound.tree
  obtain ⟨base, hc⟩ := hσ.counted
  cases op with
  | create path isdir readonly overwrite mem worm =>
    rcases ltfsFsopsCreate_spec env path isdir readonly overwrite mem worm hs hc rfl with
      ⟨e, t, hr, ht, _⟩ | ⟨norm, p, hadm, hp, hout⟩
    · rw [Op.exec, hr]
      exact hb.frame ht
    · exact (hout (hproper norm p hadm hp).1).balanced hs hb (hop norm p hadm hp)
  | unlink path => exact (ltfsFsopsUnlink_spec env path hs hc).balanced hs hb
  | rename source target mem =>
    rcases ltfsFsopsRename_spec env source target mem hs hc with
      ⟨ht, _, _⟩ | ⟨from_, to_, fromdir, todir, hadm, hfrom, hto, _, s₁, hs₁, hout⟩
    · exact hb.frame ht
    · obtain ⟨_, hreplaced, _⟩ := hproper from_ to_ fromdir todir hadm hfrom hto
      refine hout.balanced (hs.frame hs₁) (hb.frame hs₁) ?_ fun f hf => ?_
      · rw [Dentry.Sees, hs₁.findKey]
        exact hreplaced
      · rw [hs₁.findKey] at hf
        obtain ⟨hlinked, hfree⟩ := hop from_ to_ fromdir todir f hadm hfrom hto hf
        exact ⟨hlinked, hfree.frame hs₁⟩
  | openFile path openWrite useIosched sched =>
    exact (ltfsFsopsOpen_spec env path openWrite useIosched sched hs hc).balanced hb hop
  | write d append sched =>
    have hspec := ltfsFsopsWrite_spec hc (rfl : ltfsFsopsWrite env d append sched σ.fs = _)
    exact Session.through_balanced hb (hb.recounted hspec.1 (.inl hspec.2))
  | truncate d length sched =>
    have hspec := ltfsFsopsTruncate_spec length sched hc
      (rfl : ltfsFsopsTruncate env d length sched σ.fs = _)
    refine Session.through_balanced hb (hb.recounted hspec.1 ?_)
    rcases hspec.2 with hsame | hnew
    · exact .inl hsame
    · rw [hnew]
      exact hop
  | truncatePath path length sched =>
    obtain ⟨d, hd, ht⟩ := ltfsFsopsTruncatePath_spec env path length sched hs hc
    exact hb.recounted ht (.inr ⟨hd, hop⟩)
  | close d dirty openWrite useIosched sched => exact hb.closed hσ hop

theorem Reached.proper (h : Reached Op.Regular σ₀ σ) : Reached Op.Proper σ₀ σ := by
  induction h with
  | start => exact .start
  | call env op σ _ hop ih => exact .call env op σ ih hop.1

theorem Reached.balanced (h₀ : WellKept σ₀) (hb : Balanced σ₀.fs)
    (h : Reached Op.Regular σ₀ σ) : Balanced σ.fs := by
  induction h with
  | start => exact hb
  | call env op σ hrun hop ih =>
    exact Op.exec_balanced (hrun.proper.wellKept h₀) ih hop

/-- The totals of the index say how many files can be reached from the root, and
how many blocks they use. -/
def Accounted (s : LtfsIndex) : Prop :=
  ∃ files : Finset ℕ,
    (∀ d, d ∈ files ↔ Reach s d ∧ (s.dentry d).isdir = false) ∧
      s.fileCount = files.card ∧
      s.validBlocks = ∑ d ∈ files, ((s.dentry d).usedBlocks : ℤ)

/-- In every session on a mounted volume whose calls are regular, the totals are
right after every call. -/
theorem accounted_of_reached {blocksize : ℕ} (hs : Mounted blocksize s)
    {σ : Session} (hrun : Reached Op.Regular ⟨s, []⟩ σ) : Accounted σ.fs := by
  obtain ⟨F, hF⟩ := (hrun.balanced hs.wellKept hs.balanced).totals
  have htree := (hrun.proper.wellKept hs.wellKept).sound.tree
  refine ⟨F, fun d => ?_, hF.count, hF.blocks⟩
  rw [htree.reach_iff]
  exact hF.lists d

/-- `/a` is made, opened for writing by its maker, written to and closed. -/
theorem accounted_of_reached_write :
    Accounted ((Op.close 1 false true false {}).exec {}
      ((Op.write 1 true { extentlist := [⟨.dp, 5, 0, 600, 0⟩] }).exec {}
        ((Op.create (.ok [[0x61]]) false false false {} none).exec {}
          ⟨ltfsIndexAlloc 512, []⟩))).fs := by
  refine accounted_of_reached Mounted.alloc
    (.call _ _ _ (.call _ _ _ (.call _ _ _ .start ⟨?_, ?_⟩) ⟨trivial, trivial⟩)
      ⟨trivial, ?_⟩)
  · intro norm p hadm hp
    cases hadm
    cases hp
    exact ⟨.inl rfl, fun _ => ⟨fun _ => rfl, fun _ => rfl⟩⟩
  · intro norm p _ _ _ _
    rfl
  · intro _
    exact .inr ⟨.inr ⟨0, [0x61], by decide⟩, rfl⟩

/-- Blocks that no file of the tree uses. -/
theorem not_accounted_of_unused (hs : Tree s)
    (hunused : ∀ d, d < s.next → (s.dentry d).deleted = false →
      (s.dentry d).usedBlocks = 0)
    (hblocks : s.validBlocks ≠ 0) : ¬ Accounted s := by
  rintro ⟨F, hF, _, hsum⟩
  refine hblocks (hsum.trans (Finset.sum_eq_zero fun d hd => ?_))
  have hatt := (hs.reach_iff d).1 ((hF d).1 hd).1
  rw [hunused d (hs.attached_lt hatt) (hs.attached_deleted hatt), Nat.cast_zero]

/-- `/a` is written and closed, and `/b` renamed over it; `/a` is written and
unlinked while it is open, and then closed. -/
theorem accounted_lost :
    ¬ Accounted (List.foldl (fun σ op => Op.exec {} op σ) ⟨ltfsIndexAlloc 512, []⟩
      [.create (.ok [[0x61]]) false false false {} none,
        .write 1 true { extentlist := [⟨.dp, 5, 0, 600, 0⟩] },
        .close 1 false true false {},
        .create (.ok [[0x62]]) false false false {} none,
        .rename (.ok [[0x62]]) (.ok [[0x61]]) {}]).fs ∧
    ¬ Accounted (List.foldl (fun σ op => Op.exec {} op σ) ⟨ltfsIndexAlloc 512, []⟩
      [.create (.ok [[0x61]]) false false false {} none,
        .write 1 true { extentlist := [⟨.dp, 5, 0, 600, 0⟩] },
        .unlink (.ok [[0x61]]),
        .close 1 false true false {}]).fs := by
  have hcreate {σ : Session} (name : Name) (hσ : WellKept σ) : WellKept
      ((Op.create (.ok [name]) false false false {} none).exec {} σ) := by
    refine Op.exec_wellKept hσ fun norm p hadm hp => ?_
    cases hadm
    cases hp
    exact ⟨.inl rfl, fun _ => ⟨fun _ => hσ.sound.tree.root_isdir, fun _ => rfl⟩⟩
  have hstart : WellKept ⟨ltfsIndexAlloc 512, []⟩ := Mounted.alloc.wellKept
  have hwritten {σ : Session} (hσ : WellKept σ) (d : ℕ) (sched : SchedReply) :
      WellKept ((Op.write d true sched).exec {} σ) := Op.exec_wellKept hσ trivial
  have hclosed {σ : Session} (hσ : WellKept σ) (d : ℕ) :
      WellKept ((Op.close d false true false {}).exec {} σ) :=
    Op.exec_wellKept hσ trivial
  have hmoved {σ : Session} (hσ : WellKept σ) :
      WellKept ((Op.rename (.ok [[0x62]]) (.ok [[0x61]]) {}).exec {} σ) := by
    refine Op.exec_wellKept hσ fun from_ to_ fromdir todir hadm _ hto => ?_
    cases hadm
    cases hto
    exact ⟨.inl rfl, .inl rfl,
      fun f _ => ⟨fun _ => hσ.sound.tree.root_isdir, fun _ => rfl⟩⟩
  have hfile := hwritten (hcreate [0x61] hstart) 1 { extentlist := [⟨.dp, 5, 0, 600, 0⟩] }
  constructor
  · have hboth := hcreate [0x62] (hclosed hfile 1)
    exact not_accounted_of_unused (hmoved hboth).sound.tree (by decide) (by decide)
  · have hgone : WellKept ((Op.unlink (.ok [[0x61]])).exec {} _) :=
      Op.exec_wellKept hfile trivial
    exact not_accounted_of_unused (hclosed hgone 1).sound.tree (by decide) (by decide)

end AuroraLtfs.Fs
