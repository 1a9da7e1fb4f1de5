import AuroraLtfs.Fs.OpSpecs

/-!
# What a rename does to the tree

A rename may take the dentry it replaces out of the target directory, and then
moves its source there.  Three of its exits forget a reference: the one for a
protected source, if the target exists, the one for a target whose key cannot be
copied, and the one for a failed insertion.
-/

namespace AuroraLtfs.Fs

open AuroraLtfs.ParentChain

variable {base : ℕ → ℕ} {refs : List ℕ} {s t : LtfsIndex}

/-! ## The reference a rename forgets -/

def tooLong (name : Name) : Bool := ltfsFilenameMax < pathnameStrlen name

/-- A target that keeps the source from taking its place. -/
def renameBlocked (f : ℕ) (s : LtfsIndex) (t : ℕ) : Bool :=
  (s.dentry t).isWorm ||
    t ≠ f && ((s.dentry t).isdir && decide ((s.dentry t).childList ≠ []))

/-- The dentry whose reference a rename within the two directories will not give
back, told from the state before. -/
def renameLeak (fromdir todir : ℕ) (fromName toName : Name) (mem : Memory)
    (s : LtfsIndex) : Option ℕ :=
  if (s.dentry fromdir).isWorm || (s.dentry todir).isWorm then none
  else if tooLong fromName || tooLong toName then none
  else
    match (s.dentry fromdir).findCopied mem.nameKey fromName with
    | none => none
    | some f =>
      let target := (s.dentry todir).findCopied mem.targetKey toName
      if (renameLoops fromdir todir f target s).isSome then none
      else if (s.dentry f).isWorm then target
      else if target.any (renameBlocked f s) then none
      else if !mem.replacedKey && target.any (· ≠ f) then target
      else if mem.removalKey && mem.failed then some f
      else none

/-! ## References given back -/

theorem dropReference_spec {d dir : ℕ} (hdir : dir ∈ refs) (hs : Gone s)
    (hc : Counted base (d :: refs) s) : Releases base refs s (dropReference dir d s) := by
  rw [dropReference]
  split
  · next heq => exact ⟨Frame.handle s d (-1), hc.drop (.inr (.inl (heq ▸ hdir)))⟩
  · exact fsReleaseDentry_spec hs hc

theorem dropTarget_spec {dir : ℕ} (hdir : dir ∈ refs) (target : Option ℕ) (hs : Gone s)
    (hc : Counted base (target.toList ++ refs) s) :
    Releases base refs s (dropTarget dir target s) := by
  cases target with
  | none => exact ⟨Frame.refl s, hc⟩
  | some d => exact dropReference_spec hdir hs hc

theorem release_two {d e : ℕ} (hs : Gone s) (hc : Counted base (d :: e :: refs) s) :
    Releases base refs s (fsReleaseDentry e (fsReleaseDentry d s)) := by
  have hfirst := fsReleaseDentry_spec hs hc
  have hsecond := fsReleaseDentry_spec (hs.frame hfirst.frame) hfirst.counted
  exact ⟨hfirst.frame.trans hsecond.frame, hsecond.counted⟩

/-! ## Looking up source and target -/

inductive RenameFound (base : ℕ → ℕ) (refs : List ℕ) (s : LtfsIndex)
    (fromdir todir : ℕ) (fromName toName : Name) (mem : Memory) :
    Outcome FsError LtfsIndex (ℕ × Option ℕ) → Prop
  | failed (e : FsError) (t : LtfsIndex) : Frame s t → Counted base refs t →
      ((tooLong fromName || tooLong toName) = true ∨
        (s.dentry fromdir).findCopied mem.nameKey fromName = none) →
      RenameFound base refs s fromdir todir fromName toName mem (.error e, t)
  | found (f : ℕ) (target : Option ℕ) (t : LtfsIndex) : Frame s t →
      Counted base (f :: (target.toList ++ refs)) t →
      (tooLong fromName || tooLong toName) = false →
      (s.dentry fromdir).findCopied mem.nameKey fromName = some f →
      (s.dentry todir).findCopied mem.targetKey toName = target →
      RenameFound base refs s fromdir todir fromName toName mem (.ok (f, target), t)

theorem tooLong_iff {name : Name} :
    tooLong name = true ↔ ltfsFilenameMax < pathnameStrlen name :=
  decide_eq_true_iff

theorem tooLong_or_eq_false {name name' : Name}
    (h : ¬ltfsFilenameMax < pathnameStrlen name)
    (h' : ¬ltfsFilenameMax < pathnameStrlen name') :
    (tooLong name || tooLong name') = false :=
  Bool.or_eq_false_iff.2 ⟨decide_eq_false h, decide_eq_false h'⟩

theorem renameLookup_spec {fromdir todir : ℕ} (fromName toName : Name)
    (mem : Memory) (hs : Tree s) (hc : Counted base refs s) (hfromRef : fromdir ∈ refs)
    (htoRef : todir ∈ refs) :
    RenameFound base refs s fromdir todir fromName toName mem
      (renameLookup fromdir todir fromName toName mem s) := by
  rw [renameLookup]
  split
  · -- The target directory is searched first.
    have hto := fsDirectoryLookup_spec hs hc mem.targetKey todir toName
    generalize fsDirectoryLookup mem.targetKey todir toName s = rto at hto ⊢
    cases hto with
    | refused hlong =>
      refine .failed _ s (Frame.refl s) hc (.inl ?_)
      rw [tooLong_iff.2 hlong, Bool.or_true]
    | absent hlongTo hnone =>
      have hfrom := fsDirectoryLookup_spec hs hc mem.nameKey fromdir fromName
      dsimp only
      generalize fsDirectoryLookup mem.nameKey fromdir fromName s = rfrom at hfrom ⊢
      cases hfrom with
      | refused hlong =>
        refine .failed _ s (Frame.refl s) hc (.inl ?_)
        rw [tooLong_iff.2 hlong, Bool.true_or]
      | absent _ hnot => exact .failed _ s (Frame.refl s) hc (.inr hnot)
      | found f u hlongFrom hfind hu hcu =>
        exact .found f none u hu hcu (tooLong_or_eq_false hlongFrom hlongTo) hfind hnone
    | found x u hlongTo hx hu hcu =>
      have hfrom := fsDirectoryLookup_spec (hs.frame hu) hcu mem.nameKey fromdir fromName
      dsimp only
      generalize fsDirectoryLookup mem.nameKey fromdir fromName u = rfrom at hfrom ⊢
      cases hfrom with
      | refused hlong =>
        have hrel := dropTarget_spec hfromRef (some x) (hs.frame hu).gone hcu
        refine .failed _ _ (hu.trans hrel.frame) hrel.counted (.inl ?_)
        rw [tooLong_iff.2 hlong, Bool.true_or]
      | absent _ hnot =>
        have hrel := dropTarget_spec hfromRef (some x) (hs.frame hu).gone hcu
        refine .failed _ _ (hu.trans hrel.frame) hrel.counted (.inr ?_)
        exact (hu.findCopied mem.nameKey fromdir fromName).symm.trans hnot
      | found f v hlongFrom hfind hv hcv =>
        exact .found f (some x) v (hu.trans hv) hcv (tooLong_or_eq_false hlongFrom hlongTo)
          ((hu.findCopied mem.nameKey fromdir fromName).symm.trans hfind) hx
  · have hfrom := fsDirectoryLookup_spec hs hc mem.nameKey fromdir fromName
    generalize fsDirectoryLookup mem.nameKey fromdir fromName s = rfrom at hfrom ⊢
    cases hfrom with
    | refused hlong =>
      refine .failed _ s (Frame.refl s) hc (.inl ?_)
      rw [tooLong_iff.2 hlong, Bool.true_or]
    | absent _ hnot => exact .failed _ s (Frame.refl s) hc (.inr hnot)
    | found f u hlongFrom hfind hu hcu =>
      have hto := fsDirectoryLookup_spec (hs.frame hu) hcu mem.targetKey todir toName
      dsimp only
      generalize fsDirectoryLookup mem.targetKey todir toName u = rto at hto ⊢
      cases hto with
      | refused hlong =>
        have hrel := dropReference_spec htoRef (hs.frame hu).gone hcu
        refine .failed _ _ (hu.trans hrel.frame) hrel.counted (.inl ?_)
        rw [tooLong_iff.2 hlong, Bool.or_true]
      | absent hlongTo hnone =>
        exact .found f none u hu hcu (tooLong_or_eq_false hlongFrom hlongTo) hfind
          ((hu.findCopied mem.targetKey todir toName).symm.trans hnone)
      | found x v hlongTo hx hv hcv =>
        exact .found f (some x) v (hu.trans hv) (hcv.perm (List.Perm.swap f x refs))
          (tooLong_or_eq_false hlongFrom hlongTo) hfind
          ((hu.findCopied mem.targetKey todir toName).symm.trans hx)

/-! ## The decision is the same whatever references are held -/

theorem predecessorWalk_frame (h : Frame s t) (d1 fuel d : ℕ) :
    predecessorWalk t d1 fuel d = predecessorWalk s d1 fuel d := by
  induction fuel generalizing d with
  | zero => rfl
  | succ fuel ih =>
    rw [predecessorWalk, predecessorWalk, h.parent]
    cases (s.dentry d).parent with
    | none => rfl
    | some p => exact congrArg _ (ih p)

theorem fsIsPredecessor_frame (h : Frame s t) (d1 d2 : ℕ) :
    fsIsPredecessor t d1 d2 = fsIsPredecessor s d1 d2 := by
  rw [fsIsPredecessor, fsIsPredecessor, h.next, predecessorWalk_frame h]

theorem renameLoops_frame (h : Frame s t) (fromdir todir f : ℕ) (target : Option ℕ) :
    renameLoops fromdir todir f target t = renameLoops fromdir todir f target s := by
  unfold renameLoops
  simp only [fsIsPredecessor_frame h, h.isdir]

theorem renameBlocked_frame (h : Frame s t) (f : ℕ) :
    renameBlocked f t = renameBlocked f s := by
  funext x
  unfold renameBlocked
  simp only [h.isWorm, h.isdir, h.childList]

theorem renameLeak_frame (h : Frame s t) (fromdir todir : ℕ)
    (fromName toName : Name) (mem : Memory) :
    renameLeak fromdir todir fromName toName mem t =
      renameLeak fromdir todir fromName toName mem s := by
  unfold renameLeak
  simp only [h.isWorm, h.findCopied, renameLoops_frame h, renameBlocked_frame h]

/-- A rename that is let through does not move a dentry below itself. -/
theorem renameLoops_none {fromdir todir f : ℕ} {target : Option ℕ} (hs : Tree s)
    (hto : todir < s.next)
    (h : renameLoops fromdir todir f target s = none) : ¬ Above s.parent f todir := by
  intro habove
  unfold renameLoops at h
  rw [(fsIsPredecessor_iff hs hto).2 habove, Bool.or_true, if_pos rfl] at h
  cases h

/-! ## Taking the replaced dentry out -/

/-- What was found in the target place is gone, or nothing but the source was
found. -/
inductive Replaced (s : LtfsIndex) (todir f : ℕ) (toName : Name) :
    LtfsIndex → Prop
  | nothing (t : LtfsIndex) : Frame s t → Replaced s todir f toName t
  | target (x : ℕ) (t : LtfsIndex) : (toName, x) ∈ (s.dentry todir).childList →
      x ≠ f → (s.dentry x).childList = [] → SameTree (detached todir x s) t →
      SameTotals ((detached todir x s).countFile (-1) (s.dentry x).isdir) t →
      Replaced s todir f toName t

/-- The state a dentry can be moved in. -/
structure Moves (s : LtfsIndex) (fromdir todir f : ℕ) : Prop where
  tree : Tree s
  entry : ∃ n, (n, f) ∈ (s.dentry fromdir).childList
  target : Attached s todir
  loop : ¬ Above s.parent f todir

/-- Nothing but `f` stands under the name. -/
def Vacant (s : LtfsIndex) (dir : ℕ) (name : Name) (f : ℕ) : Prop :=
  ∀ c, (name, c) ∈ (s.dentry dir).childList → c = f

/-- In a directory a name stands once. -/
theorem Tree.entry_unique (hs : Tree s) {p c e : ℕ} {n : Name}
    (hc : (n, c) ∈ (s.dentry p).childList) (he : (n, e) ∈ (s.dentry p).childList) :
    c = e := by
  have hinj := List.inj_on_of_nodup_map (hs.nodup p) hc he rfl
  exact congrArg Prod.snd hinj

theorem Replaced.moves {fromdir todir f : ℕ} {fromName toName : Name}
    (h : Replaced s todir f toName t) (hs : Tree s)
    (hf : (fromName, f) ∈ (s.dentry fromdir).childList) (hto : Attached s todir)
    (hloop : ¬ Above s.parent f todir) : Moves t fromdir todir f := by
  cases h with
  | nothing t hframe =>
    have hparent : t.parent = s.parent := funext hframe.parent
    refine ⟨hs.frame hframe, ⟨fromName, ?_⟩, hto.frame hframe, ?_⟩
    · rw [hframe.childList]; exact hf
    · rw [hparent]; exact hloop
  | target x t hx hxf hleaf hsame _ =>
    have hre := detached_rehung hs hx
    have htree := (hre.tree hs (detached_fits hs hx hleaf)).same hsame
    have hxto : todir ≠ x := (hs.entry_ne hx).symm
    refine ⟨htree, ⟨fromName, ?_⟩, ?_, ?_⟩
    · rw [hsame.childList]
      exact hre.mem_iff.2 (.inl ⟨hf, hxf.symm⟩)
    · exact (hsame.attached todir).2 ((hre.attached_of_ne hxto).2 hto)
    · have hparent : t.parent = Function.update s.parent x none := by
        have hsame' : t.parent = (detached todir x s).parent := funext hsame.parent
        rw [hsame', hre.parent_eq, detached_self Dentry.parent (fun _ _ => rfl) hxto.symm]
        rfl
      rw [hparent]
      exact fun habove => hloop habove.of_update_none

/-- Once what stood there is gone, the name is free. -/
theorem vacant_of_detached {todir x f : ℕ} {toName : Name} (hs : Tree s)
    (hx : (toName, x) ∈ (s.dentry todir).childList)
    (hsame : SameTree (detached todir x s) t) : Vacant t todir toName f := by
  intro c hc
  rw [hsame.childList] at hc
  rcases (detached_rehung hs hx).mem_iff.1 hc with ⟨hold, hne⟩ | ⟨hplace, _⟩
  · exact absurd (hs.entry_unique hold hx) hne
  · cases hplace

/-- The order in which the links and the table of the target directory are
changed does not matter. -/
theorem replaced_dentry {todir x : ℕ} (hne : x ≠ todir) :
    (((linkDir (-1) (s.dentry x).isdir todir s).modify x Dentry.unlinked).modify
      todir (Dentry.delKey (s.dentry x).name)).dentry =
      (detached todir x s).dentry := by
  funext y
  unfold detached linkDir
  by_cases hyx : y = x
  · subst hyx
    split <;> simp [LtfsIndex.modify_dentry, hne]
  · by_cases hyt : y = todir
    · subst hyt
      split
      · simp [LtfsIndex.modify_dentry, hyx, Dentry.link, Dentry.delKey]
      · simp [LtfsIndex.modify_dentry, hyx]
    · split <;> simp [LtfsIndex.modify_dentry, hyx, hyt]

/-- What is left when the key of the replaced dentry cannot be copied. -/
def stranded (todir x : ℕ) (s : LtfsIndex) : LtfsIndex :=
  (linkDir (-1) (s.dentry x).isdir todir s).modify x Dentry.unlinked

theorem stranded_field {α : Type*} (f : Dentry → α)
    (hf : ∀ (d : Dentry) (n : Name), f (d.delKey n) = f d) {todir x : ℕ}
    (hne : x ≠ todir) (y : ℕ) :
    f ((stranded todir x s).dentry y) = f ((detached todir x s).dentry y) := by
  rw [← replaced_dentry hne]
  exact (modify_field f (hf _ _) y).symm

theorem Counted.stranded {todir x : ℕ} {toName : Name} (hc : Counted base refs s)
    (hs : Tree s) (hx : (toName, x) ∈ (s.dentry todir).childList) (hheld : x ∈ refs) :
    Counted base refs (stranded todir x s) := by
  have hne := hs.entry_ne hx
  exact (hc.detached hs hx hheld).same
    (stranded_field Dentry.numhandles (fun _ _ => rfl) hne)
    (stranded_field Dentry.deleted (fun _ _ => rfl) hne)
    (stranded_field Dentry.freed (fun _ _ => rfl) hne)
    (stranded_field Dentry.outOfSync (fun _ _ => rfl) hne)

theorem stranded_gone (todir : ℕ) {x : ℕ} (hs : Tree s) (hleaf : (s.dentry x).childList = []) :
    Gone (stranded todir x s) := by
  intro y hy
  have hlist : ((stranded todir x s).dentry y).childList = (s.dentry y).childList := by
    rw [stranded, modify_field Dentry.childList rfl,
      linkDir_field Dentry.childList fun _ _ => rfl]
  rw [hlist]
  by_cases hyx : y = x
  · rw [hyx, hleaf, stranded, LtfsIndex.modify_dentry_self]
    exact ⟨rfl, rfl⟩
  · have hold (d : Dentry → Bool) (hd : ∀ e n, d (Dentry.link n e) = d e) :
        d ((stranded todir x s).dentry y) = d (s.dentry y) := by
      rw [stranded, LtfsIndex.modify_dentry_of_ne hyx, linkDir_field d hd]
    rw [hold Dentry.deleted fun _ _ => rfl] at hy
    rw [stranded, LtfsIndex.modify_dentry_of_ne hyx,
      linkDir_field Dentry.parent fun _ _ => rfl]
    exact ⟨hs.gone_childList hy, hs.gone_parent hy⟩

theorem replaceTarget_spec {todir x : ℕ} {toName : Name} (hs : Tree s)
    (hx : (toName, x) ∈ (s.dentry todir).childList)
    (hleaf : (s.dentry x).childList = []) (hc : Counted base (x :: refs) s) :
    ∃ t, replaceTarget true todir x s = (some (), t) ∧ SameTree (detached todir x s) t ∧
      SameTotals ((detached todir x s).countFile (-1) (s.dentry x).isdir) t ∧
      Counted base refs t := by
  have hne := hs.entry_ne hx
  obtain ⟨u, hu⟩ : ∃ u, u = (((linkDir (-1) (s.dentry x).isdir todir s).modify x
    Dentry.unlinked).modify todir (Dentry.delKey (s.dentry x).name)).countFile (-1)
      (s.dentry x).isdir := ⟨_, rfl⟩
  have hdentry : u.dentry = (detached todir x s).dentry := by
    rw [hu, countFile_dentry, replaced_dentry hne]
  have hnext : u.next = (detached todir x s).next := by
    rw [hu, countFile_next, detached_next]
    exact linkDir_next _ _ _
  have htree : SameTree (detached todir x s) u := SameTree.of_dentry hdentry hnext
  have hcu : Counted base (x :: refs) u := (hc.detached hs hx List.mem_cons_self).of_dentry hdentry
  have hgone : Gone u := ((detached_rehung hs hx).tree hs
    (detached_fits hs hx hleaf)).gone.same htree
  have hrel := fsReleaseDentry_spec hgone hcu
  have htotals : SameTotals ((detached todir x s).countFile (-1) (s.dentry x).isdir) u := by
    refine .of_dentry ?_ ?_ ?_
    · rw [countFile_dentry, hdentry]
    · rw [hu, countFile_fileCount, countFile_fileCount]
      simp [detached]
    · rw [hu, countFile_validBlocks, countFile_validBlocks]
      simp [detached]
  refine ⟨fsReleaseDentry x u, ?_, htree.trans hrel.frame.sameTree,
    htotals.trans hrel.frame.sameTotals, hrel.counted⟩
  rw [replaceTarget, hu]
  have hfound : (((linkDir (-1) (s.dentry x).isdir todir s).modify x
      Dentry.unlinked).dentry todir).findCopied true (s.dentry x).name ≠ none := by
    refine Dentry.findKey_of_mem (c := x) ?_
    rw [modify_field Dentry.childList rfl,
      linkDir_field Dentry.childList fun _ _ => rfl, hs.entry_name hx]
    exact hx
  dsimp only
  split
  · next hnone => exact absurd hnone hfound
  · rfl

theorem moveDentry_stuck {mem : Memory} (hkey : mem.removalKey = false)
    (fromdir todir f : ℕ) (toName : Name) (s : LtfsIndex) :
    moveDentry fromdir todir f toName mem s = (.ok (), s) := by
  rw [moveDentry, hkey]
  rfl

theorem moveDentry_eq {fromdir todir f : ℕ} {toName : Name} {mem : Memory}
    (hkey : mem.removalKey = true) (h : Moves s fromdir todir f) :
    moveDentry fromdir todir f toName mem s =
      (if mem.failed then .error .noMemory else .ok (),
        relocated fromdir todir f toName mem s) := by
  obtain ⟨n, hmem⟩ := h.entry
  rw [moveDentry, hkey]
  split
  · next hnone =>
    rw [h.tree.entry_name hmem] at hnone
    exact absurd hnone (Dentry.findKey_of_mem hmem)
  · show (if mem.failed = true then (_, relocated fromdir todir f toName mem s)
      else (_, relocated fromdir todir f toName mem s)) = _
    split <;> rfl

/-! ## The rename itself -/

section Rename

variable {fromdir todir f : ℕ} {target : Option ℕ} {fromName toName : Name}
variable {mem : Memory}

theorem renameLeak_eq (mem : Memory)
    (hworm : ((s.dentry fromdir).isWorm || (s.dentry todir).isWorm) = false)
    (hlong : (tooLong fromName || tooLong toName) = false)
    (hfind : (s.dentry fromdir).findCopied mem.nameKey fromName = some f)
    (htarget : (s.dentry todir).findCopied mem.targetKey toName = target) :
    renameLeak fromdir todir fromName toName mem s =
      if (renameLoops fromdir todir f target s).isSome then none
      else if (s.dentry f).isWorm then target
      else if target.any (renameBlocked f s) then none
      else if !mem.replacedKey && target.any (· ≠ f) then target
      else if mem.removalKey && mem.failed then some f
      else none := by
  rw [renameLeak, hworm, hlong, hfind, htarget]
  rfl

/-- The outcome of a rename before the directories are released.  Where it succeeds
the reference to the source is still held.  A name that was not seen in the target
directory may stand there twice after a move. -/
inductive RenameDone (base : ℕ → ℕ) (refs : List ℕ) (s : LtfsIndex)
    (fromdir todir f : ℕ) (toName : Name) (mem : Memory) (leak : Option ℕ) :
    Outcome FsError LtfsIndex Unit → Prop
  | unchanged (e : FsError) (t : LtfsIndex) : Frame s t → Counted base refs t →
      leak = none →
      RenameDone base refs s fromdir todir f toName mem leak (.error e, t)
  | leaked (x : ℕ) (e : FsError) (t : LtfsIndex) : Frame s t →
      Counted (bump base x) refs t → leak = some x →
      RenameDone base refs s fromdir todir f toName mem leak (.error e, t)
  | stranded (x : ℕ) : mem.replacedKey = false →
      (s.dentry todir).findKey toName = some x → (s.dentry x).childList = [] →
      Counted base (f :: x :: refs) (stranded todir x s) → leak = some x →
      RenameDone base refs s fromdir todir f toName mem leak (.ok (), stranded todir x s)
  | stuck (u : LtfsIndex) : Replaced s todir f toName u → Gone u →
      Counted base (f :: refs) u → leak = none →
      RenameDone base refs s fromdir todir f toName mem leak (.ok (), u)
  | moved (u : LtfsIndex) : Replaced s todir f toName u →
      Moves u fromdir todir f →
      ((s.dentry todir).Sees mem.targetKey toName → Vacant u todir toName f) →
      Counted base (f :: refs) u → leak = (if mem.failed then some f else none) →
      RenameDone base refs s fromdir todir f toName mem leak
        (if mem.failed then .error .noMemory else .ok (),
          relocated fromdir todir f toName mem u)

theorem moveDentry_done {u : LtfsIndex} {leak : Option ℕ}
    (hrep : Replaced s todir f toName u) (hmoves : Moves u fromdir todir f)
    (hvacant : (s.dentry todir).Sees mem.targetKey toName → Vacant u todir toName f)
    (hc : Counted base (f :: refs) u)
    (hleak : leak = if mem.removalKey && mem.failed then some f else none) :
    RenameDone base refs s fromdir todir f toName mem leak
      (moveDentry fromdir todir f toName mem u) := by
  cases hkey : mem.removalKey with
  | false =>
    rw [moveDentry_stuck hkey]
    rw [hkey] at hleak
    exact .stuck u hrep hmoves.tree.gone hc hleak
  | true =>
    rw [moveDentry_eq hkey hmoves]
    rw [hkey] at hleak
    exact .moved u hrep hmoves hvacant hc hleak

theorem renameDentry_spec (mem : Memory) (hs : Tree s) (hto : Attached s todir)
    (hc : Counted base (f :: (target.toList ++ refs)) s)
    (hfromRef : fromdir ∈ refs) (htoRef : todir ∈ refs)
    (hworm : ((s.dentry fromdir).isWorm || (s.dentry todir).isWorm) = false)
    (hlong : (tooLong fromName || tooLong toName) = false)
    (hfind : (s.dentry fromdir).findCopied mem.nameKey fromName = some f)
    (htarget : (s.dentry todir).findCopied mem.targetKey toName = target) :
    RenameDone base refs s fromdir todir f toName mem
      (renameLeak fromdir todir fromName toName mem s)
      (renameDentry fromdir todir f target toName mem s) := by
  have hf := Dentry.mem_of_findCopied hfind
  have hleak := renameLeak_eq mem hworm hlong hfind htarget
  unfold renameDentry
  cases hloops : renameLoops fromdir todir f target s with
  | some e =>
    have hfirst := dropReference_spec (List.mem_append_right _ htoRef) hs.gone hc
    have hsecond := dropTarget_spec hfromRef target (hs.gone.frame hfirst.frame)
      hfirst.counted
    refine .unchanged e _ (hfirst.frame.trans hsecond.frame) hsecond.counted ?_
    rw [hleak, hloops]
    rfl
  | none =>
    have hloop := renameLoops_none hs (hs.attached_lt hto) hloops
    rw [hloops] at hleak
    simp only [Option.isSome_none, Bool.false_eq_true, if_false] at hleak
    dsimp only
    by_cases hprotected : (s.dentry f).isWorm = true
    · rw [if_pos hprotected]
      rw [if_pos hprotected] at hleak
      have hrel := fsReleaseDentry_spec hs.gone hc
      cases target with
      | none => exact .unchanged _ _ hrel.frame hrel.counted hleak
      | some x => exact .leaked x _ _ hrel.frame hrel.counted.leak hleak
    · rw [if_neg hprotected]
      rw [if_neg hprotected] at hleak
      cases target with
      | none =>
        have hrep : Replaced s todir f toName s := .nothing s (Frame.refl s)
        have hvacant (hsees : (s.dentry todir).Sees mem.targetKey toName) :
            Vacant s todir toName f :=
          fun c hmem => absurd hmem (Dentry.not_mem_of_findKey (hsees.findKey htarget) c)
        simp only [Option.any_none, Bool.and_false, Bool.false_eq_true, if_false] at hleak
        exact moveDentry_done hrep (hrep.moves hs hf hto hloop) hvacant hc hleak
      | some x =>
        have hx := Dentry.mem_of_findCopied htarget
        have hblock : (some x).any (renameBlocked f s) = renameBlocked f s x := rfl
        have hother : (some x).any (fun y => decide (y ≠ f)) = decide (x ≠ f) := rfl
        rw [hblock, renameBlocked, hother] at hleak
        dsimp only
        by_cases hxworm : (s.dentry x).isWorm = true
        · rw [if_pos hxworm]
          rw [hxworm, Bool.true_or, if_pos rfl] at hleak
          have hrel := release_two hs.gone hc
          exact .unchanged _ _ hrel.frame hrel.counted hleak
        · rw [if_neg hxworm]
          rw [Bool.not_eq_true] at hxworm
          rw [hxworm, Bool.false_or] at hleak
          by_cases hxf : x = f
          · subst hxf
            rw [if_pos rfl]
            simp only [ne_eq, not_true_eq_false, decide_false, Bool.false_and,
              Bool.and_false, Bool.false_eq_true, if_false] at hleak
            have hrel := fsReleaseDentry_spec hs.gone hc
            have hrep : Replaced s todir x toName (fsReleaseDentry x s) :=
              .nothing _ hrel.frame
            have hvacant : Vacant (fsReleaseDentry x s) todir toName x := by
              intro c hmem
              rw [hrel.frame.childList] at hmem
              exact hs.entry_unique hmem hx
            exact moveDentry_done hrep (hrep.moves hs hf hto hloop) (fun _ => hvacant)
              hrel.counted hleak
          · rw [if_neg hxf]
            rw [decide_eq_true hxf, Bool.true_and, Bool.and_true] at hleak
            by_cases hfull :
                ((s.dentry x).isdir && decide ((s.dentry x).childList ≠ [])) = true
            · rw [if_pos hfull]
              rw [if_pos hfull] at hleak
              have hrel := release_two hs.gone hc
              exact .unchanged _ _ hrel.frame hrel.counted hleak
            · rw [if_neg hfull]
              rw [if_neg hfull] at hleak
              have hleaf := hs.leaf_of_refused hfull
              have hc' := hc.perm (List.Perm.swap x f refs)
              cases hkey : mem.replacedKey with
              | false =>
                rw [hkey] at hleak
                exact .stranded x hkey (Dentry.findCopied_eq_some.1 htarget).2 hleaf
                  (hc.stranded hs hx (List.mem_cons_of_mem f List.mem_cons_self)) hleak
              | true =>
                rw [hkey] at hleak
                obtain ⟨u, hu, htree, htotals, hcu⟩ := replaceTarget_spec hs hx hleaf hc'
                have hrep : Replaced s todir f toName u :=
                  .target x u hx hxf hleaf htree htotals
                rw [hu]
                exact moveDentry_done hrep (hrep.moves hs hf hto hloop)
                  (fun _ => vacant_of_detached hs hx htree) hcu hleak

/-- The outcome of a rename. -/
inductive RenameOutcome (base : ℕ → ℕ) (refs : List ℕ) (s : LtfsIndex)
    (fromdir todir : ℕ) (fromName toName : Name) (mem : Memory) :
    Outcome FsError LtfsIndex Unit → Prop
  | unchanged (e : FsError) (t : LtfsIndex) : Frame s t → Counted base refs t →
      renameLeak fromdir todir fromName toName mem s = none →
      RenameOutcome base refs s fromdir todir fromName toName mem (.error e, t)
  | leaked (x : ℕ) (e : FsError) (t : LtfsIndex) : Frame s t →
      Counted (bump base x) refs t →
      renameLeak fromdir todir fromName toName mem s = some x →
      RenameOutcome base refs s fromdir todir fromName toName mem (.error e, t)
  | stranded (x : ℕ) (s₁ t : LtfsIndex) : Frame s s₁ → mem.replacedKey = false →
      (s.dentry todir).findKey toName = some x → SameTree (stranded todir x s₁) t →
      renameLeak fromdir todir fromName toName mem s = some x →
      Counted (bump base x) refs t →
      RenameOutcome base refs s fromdir todir fromName toName mem (.ok (), t)
  | stuck (f : ℕ) (s₁ u t : LtfsIndex) : Frame s s₁ →
      (s.dentry fromdir).findKey fromName = some f →
      Replaced s₁ todir f toName u → Frame u t →
      renameLeak fromdir todir fromName toName mem s = none → Counted base refs t →
      RenameOutcome base refs s fromdir todir fromName toName mem (.ok (), t)
  | moved (f : ℕ) (s₁ u t : LtfsIndex) (r : Except FsError Unit) : Frame s s₁ →
      (s.dentry fromdir).findKey fromName = some f →
      Replaced s₁ todir f toName u → Moves u fromdir todir f →
      ((s.dentry todir).Sees mem.targetKey toName → Vacant u todir toName f) →
      SameTree (relocated fromdir todir f toName mem u) t →
      SameTotals (relocated fromdir todir f toName mem u) t →
      renameLeak fromdir todir fromName toName mem s =
        (if mem.failed then some f else none) →
      Counted (if mem.failed then bump base f else base) refs t →
      RenameOutcome base refs s fromdir todir fromName toName mem (r, t)

theorem Moves.gone {u : LtfsIndex} (h : Moves u fromdir todir f) :
    Gone (relocated fromdir todir f toName mem u) := by
  obtain ⟨n, hmem⟩ := h.entry
  refine (relocated_rehung h.tree hmem).gone h.tree (fun p m hplace => ?_) fun hdel => ?_
  · obtain ⟨_, rfl, _⟩ := newPlace_eq_some hplace
    exact h.tree.attached_deleted h.target
  · have halive : ((relocated fromdir todir f toName mem u).dentry f).deleted =
        (u.dentry f).deleted :=
      relocated_self Dentry.deleted (fun _ _ => rfl) (fun _ _ _ => rfl)
        (h.tree.entry_ne hmem)
    rw [halive, h.tree.entry_deleted hmem] at hdel
    cases hdel

theorem perm_to_back (f p q : ℕ) (refs : List ℕ) :
    (f :: p :: q :: refs).Perm (p :: q :: f :: refs) :=
  (List.Perm.swap p f _).trans ((List.Perm.swap q f refs).cons p)

theorem renameExit_spec {s₁ : LtfsIndex} {r : Outcome FsError LtfsIndex Unit}
    (hs : Tree s₁) (hframe : Frame s s₁)
    (hfind : (s.dentry fromdir).findKey fromName = some f)
    (h : RenameDone base (fromdir :: todir :: refs) s₁ fromdir todir f toName mem
      (renameLeak fromdir todir fromName toName mem s) r) :
    RenameOutcome base refs s fromdir todir fromName toName mem
      (renameExit fromdir todir f r) := by
  cases h with
  | unchanged e t ht hc hleak =>
    have hrel := release_two (hs.frame ht).gone hc
    exact .unchanged e _ (hframe.trans (ht.trans hrel.frame)) hrel.counted hleak
  | leaked x e t ht hc hleak =>
    have hrel := release_two (hs.frame ht).gone hc
    exact .leaked x e _ (hframe.trans (ht.trans hrel.frame)) hrel.counted hleak
  | stranded x hkey hx hleaf hc hleak =>
    have hperm : (f :: x :: fromdir :: todir :: refs).Perm
        (fromdir :: todir :: f :: x :: refs) :=
      ((perm_to_back x fromdir todir refs).cons f).trans
        (perm_to_back f fromdir todir (x :: refs))
    have hgone := stranded_gone todir hs hleaf
    have hrel := release_two hgone (hc.perm hperm)
    have hlast := fsReleaseDentry_spec (hgone.frame hrel.frame) hrel.counted
    rw [hframe.findKey] at hx
    exact .stranded x s₁ _ hframe hkey hx (hrel.frame.trans hlast.frame).sameTree hleak
      hlast.counted.leak
  | stuck u hrep hgone hc hleak =>
    have hrel := release_two hgone (hc.perm (perm_to_back f fromdir todir refs))
    have hlast := fsReleaseDentry_spec (hgone.frame hrel.frame) hrel.counted
    exact .stuck f s₁ u _ hframe hfind hrep (hrel.frame.trans hlast.frame) hleak
      hlast.counted
  | moved u hrep hmoves hvacant hc hleak =>
    obtain ⟨n, hmem⟩ := hmoves.entry
    have hvacant' : (s.dentry todir).Sees mem.targetKey toName →
        Vacant u todir toName f := by
      rw [Dentry.Sees, ← hframe.findKey]
      exact hvacant
    have hcu : Counted base (f :: fromdir :: todir :: refs)
        (relocated fromdir todir f toName mem u) :=
      hc.relocated (hmoves.tree.entry_ne hmem)
    have hrel := release_two hmoves.gone (hcu.perm (perm_to_back f fromdir todir refs))
    rw [renameExit]
    cases hfailed : mem.failed with
    | true =>
      rw [hfailed, if_pos rfl] at hleak
      refine .moved f s₁ u _ _ hframe hfind hrep hmoves hvacant' hrel.frame.sameTree
        hrel.frame.sameTotals (by rw [hfailed]; exact hleak) ?_
      rw [hfailed]
      exact hrel.counted.leak
    | false =>
      rw [hfailed] at hleak
      have hlast := fsReleaseDentry_spec (hmoves.gone.frame hrel.frame) hrel.counted
      refine .moved f s₁ u _ _ hframe hfind hrep hmoves hvacant'
        (hrel.frame.trans hlast.frame).sameTree
        (hrel.frame.trans hlast.frame).sameTotals (by rw [hfailed]; exact hleak) ?_
      rw [hfailed]
      exact hlast.counted

theorem renameIn_spec (mem : Memory) (hs : Tree s) (hto : Attached s todir)
    (hc : Counted base (fromdir :: todir :: refs) s) :
    RenameOutcome base refs s fromdir todir fromName toName mem
      (renameIn fromdir todir fromName toName mem s) := by
  rw [renameIn]
  by_cases hworm : ((s.dentry fromdir).isWorm || (s.dentry todir).isWorm) = true
  · rw [if_pos hworm]
    have hrel := release_two hs.gone hc
    refine .unchanged _ _ hrel.frame hrel.counted ?_
    rw [renameLeak, if_pos hworm]
  · rw [if_neg hworm]
    have hfromRef : fromdir ∈ fromdir :: todir :: refs := List.mem_cons_self
    have htoRef : todir ∈ fromdir :: todir :: refs :=
      List.mem_cons_of_mem fromdir List.mem_cons_self
    have hlook := renameLookup_spec fromName toName mem hs hc hfromRef htoRef
    generalize renameLookup fromdir todir fromName toName mem s = found at hlook ⊢
    cases hlook with
    | failed e t ht hct hwhy =>
      have hrel := release_two (hs.frame ht).gone hct
      refine .unchanged e _ (ht.trans hrel.frame) hrel.counted ?_
      rw [renameLeak, if_neg hworm]
      cases hwhy with
      | inl hlong => rw [if_pos hlong]
      | inr hnone => rw [hnone]; split <;> rfl
    | found f target t ht hct hlong hfind htarget =>
      have hleak := renameLeak_frame ht fromdir todir fromName toName mem
      have hdone := renameDentry_spec mem (hs.frame ht) (hto.frame ht) hct
        hfromRef htoRef (by rw [ht.isWorm, ht.isWorm]; simpa using hworm) hlong
        ((ht.findCopied mem.nameKey fromdir fromName).trans hfind)
        ((ht.findCopied mem.targetKey todir toName).trans htarget)
      rw [hleak] at hdone
      exact renameExit_spec (hs.frame ht) ht (Dentry.findCopied_eq_some.1 hfind).2 hdone

end Rename

/-- The dentry whose reference a rename will not give back. -/
def ltfsFsopsRenameLeak (env : Env) (source target : Except FsError Path)
    (mem : Memory) (s : LtfsIndex) : Option ℕ :=
  match env.admitRename source target mem with
  | .error _ => none
  | .ok (source, target) =>
    match resolve env.keys s (fsSplitPath source).1 root,
      resolve env.targetKeys s (fsSplitPath target).1 root with
    | some fromdir, some todir =>
      renameLeak fromdir todir (fsSplitPath source).2 (fsSplitPath target).2 mem s
    | _, _ => none

/-- A rename fails before it reaches its directories, or acts in them. -/
theorem ltfsFsopsRename_spec (env : Env) (source target : Except FsError Path)
    (mem : Memory) (hs : Tree s) (hc : Counted base refs s) :
    (Frame s (ltfsFsopsRename env source target mem s).2 ∧
      Counted base refs (ltfsFsopsRename env source target mem s).2 ∧
      ltfsFsopsRenameLeak env source target mem s = none) ∨
    ∃ from_ to_ fromdir todir, env.admitRename source target mem = .ok (from_, to_) ∧
      resolve env.keys s (fsSplitPath from_).1 root = some fromdir ∧
      resolve env.targetKeys s (fsSplitPath to_).1 root = some todir ∧
      ltfsFsopsRenameLeak env source target mem s =
        renameLeak fromdir todir (fsSplitPath from_).2 (fsSplitPath to_).2 mem s ∧
      ∃ s₁, Frame s s₁ ∧
        RenameOutcome base refs s₁ fromdir todir (fsSplitPath from_).2
          (fsSplitPath to_).2 mem (ltfsFsopsRename env source target mem s) := by
  rw [ltfsFsopsRename, ltfsFsopsRenameLeak]
  cases hadm : env.admitRename source target mem with
  | error e => exact .inl ⟨Frame.refl s, hc, rfl⟩
  | ok paths =>
    obtain ⟨from_, to_⟩ := paths
    dsimp only
    have hwalk := fsPathLookup_spec env.keys false (fsSplitPath from_).1 hs hc
    generalize fsPathLookup env.keys false (fsSplitPath from_).1 s = rfrom at hwalk ⊢
    cases hwalk with
    | failed e u hres hu hcu =>
      refine .inl ⟨hu, hcu, ?_⟩
      rw [hres]
    | kept _ _ _ hkeep => cases hkeep
    | found fromdir u hfrom _ hu _ hcu =>
      have hwalk := fsPathLookup_spec env.targetKeys false (fsSplitPath to_).1
        (hs.frame hu) hcu
      dsimp only
      generalize fsPathLookup env.targetKeys false (fsSplitPath to_).1 u = rto at hwalk ⊢
      cases hwalk with
      | failed e v hres hv hcv =>
        have hrel := fsReleaseDentry_spec ((hs.frame hu).frame hv).gone hcv
        refine .inl ⟨hu.trans (hv.trans hrel.frame), hrel.counted, ?_⟩
        rw [hfrom, (resolve_frame hu _ _ _).symm.trans hres]
      | kept _ _ _ hkeep => cases hkeep
      | found todir v hto htoAtt hv _ hcv =>
        have hto' := (resolve_frame hu _ _ _).symm.trans hto
        have hframe := hu.trans hv
        refine .inr ⟨from_, to_, fromdir, todir, rfl, hfrom, hto', ?_, v, hframe, ?_⟩
        · rw [hfrom, hto']
        · exact renameIn_spec mem (hs.frame hframe) (htoAtt.frame hv)
            (hcv.perm (List.Perm.swap fromdir todir refs))

end AuroraLtfs.Fs
