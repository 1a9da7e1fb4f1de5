import AuroraLtfs.Fs.Session

/-!
# The name space stays a tree

Every dentry that can be reached from the root stands under its own name in the
child list of the directory it points to, and nowhere else; no directory is above
itself; and the links of a directory count its subdirectories.  The operations
keep all this where an insertion does not lose a directory and new entries go
into directories.
-/

namespace AuroraLtfs.Fs

open AuroraLtfs.ParentChain

variable {base : ℕ → ℕ} {refs : List ℕ} {s t : LtfsIndex} {σ : Session} {env : Env}

/-! ## Links -/

/-- The number of directories in a child list. -/
def subdirs (s : LtfsIndex) (p : ℕ) : ℕ :=
  (s.dentry p).childList.countP fun entry => (s.dentry entry.2).isdir

/-- Every directory of the tree has two links and one for each subdirectory. -/
def Linked (s : LtfsIndex) : Prop :=
  ∀ p, Attached s p → (s.dentry p).isdir = true →
    (s.dentry p).linkCount = 2 + subdirs s p

theorem subdirs_same (h : SameTree s t) (p : ℕ) : subdirs t p = subdirs s p := by
  unfold subdirs
  rw [h.childList]
  simp only [h.isdir]

theorem Linked.same (hl : Linked s) (h : SameTree s t) : Linked t := by
  intro p hp hdir
  rw [h.linkCount, subdirs_same h]
  exact hl p ((h.attached p).1 hp) ((h.isdir p).symm.trans hdir)

/-- One if `d` is a directory in the list of `p`. -/
def dirEntry (s : LtfsIndex) (p d : ℕ) : ℕ :=
  if (s.dentry p).childList.any (fun entry => entry.2 = d) &&
      (s.dentry d).isdir then 1 else 0

/-- A dentry has at most one entry in a list, which counts if it is of the kind
counted. -/
theorem countP_without {list : List (Name × ℕ)} (q : ℕ → Bool) {d : ℕ}
    (hnodup : (list.map Prod.fst).Nodup)
    (honly : ∀ m n, (m, d) ∈ list → (n, d) ∈ list → m = n) :
    list.countP (fun entry => q entry.2) =
      (without d list).countP (fun entry => q entry.2) +
        if list.any (fun entry => entry.2 = d) && q d then 1 else 0 := by
  induction list with
  | nil => rfl
  | cons head rest ih =>
    obtain ⟨m, c⟩ := head
    rw [List.map_cons, List.nodup_cons] at hnodup
    obtain ⟨hfresh, hrest⟩ := hnodup
    by_cases hcd : c = d
    · subst hcd
      have hnot : ∀ n, (n, c) ∉ rest := by
        intro n hmem
        have hmn := honly m n List.mem_cons_self (List.mem_cons_of_mem _ hmem)
        subst hmn
        exact hfresh (List.mem_map_of_mem (f := Prod.fst) hmem)
      have hhead : without c ((m, c) :: rest) = rest := by
        rw [without, List.filter_cons_of_neg (by simp)]
        exact without_of_not_mem hnot
      rw [hhead, List.countP_cons]
      simp
    · have hkeep : without d ((m, c) :: rest) = (m, c) :: without d rest :=
        List.filter_cons_of_pos (by simpa using hcd)
      have hany : ((m, c) :: rest).any (fun entry => entry.2 = d) =
          rest.any (fun entry => entry.2 = d) := by
        rw [List.any_cons, decide_eq_false hcd, Bool.false_or]
      rw [hkeep, hany, List.countP_cons, List.countP_cons, ih hrest fun k n hk hn =>
        honly k n (List.mem_cons_of_mem _ hk) (List.mem_cons_of_mem _ hn)]
      ring

theorem subdirs_split (hs : Tree s) (p d : ℕ) :
    subdirs s p = (without d (s.dentry p).childList).countP
      (fun entry => (s.dentry entry.2).isdir) + dirEntry s p d :=
  countP_without (fun c => (s.dentry c).isdir) (hs.nodup p) fun _ _ hm hn =>
    (hs.entry_name hm).symm.trans (hs.entry_name hn)

namespace Rehung

variable {d : ℕ} {place : Place}

/-- Hanging `d` elsewhere moves its count as a subdirectory with it. -/
theorem subdirs_add (h : Rehung s d place t) (hs : Tree s) (ht : Tree t) (p : ℕ) :
    subdirs t p + dirEntry s p d = subdirs s p + dirEntry t p d := by
  have hlists : without d (t.dentry p).childList = without d (s.dentry p).childList := by
    rw [h.lists, without, without, List.filter_append, List.filter_filter]
    have hnew : (entriesAt d place p).filter (fun entry => entry.2 ≠ d) = [] := by
      rw [List.filter_eq_nil_iff]
      rintro ⟨n, c⟩ hmem
      rw [(mem_entriesAt.1 hmem).2]
      simp
    rw [hnew, List.append_nil]
    simp
  have hrest : (without d (t.dentry p).childList).countP
        (fun entry => (t.dentry entry.2).isdir) =
      (without d (s.dentry p).childList).countP
        (fun entry => (s.dentry entry.2).isdir) := by
    rw [hlists]
    refine List.countP_congr fun entry hmem => ?_
    obtain ⟨n, c⟩ := entry
    rw [h.isdir c (mem_without.1 hmem).2]
  rw [subdirs_split hs p d, subdirs_split ht p d, hrest]
  ring

/-- Links are right again if each directory got or lost one with the dentry that
moved, and the dentry itself has its own. -/
theorem linked (h : Rehung s d place t) (hs : Tree s) (hfit : Fits s d place t)
    (hl : Linked s)
    (hothers : ∀ x, x ≠ d → Attached s x → (s.dentry x).isdir = true →
      (t.dentry x).linkCount =
        (s.dentry x).linkCount - dirEntry s x d + dirEntry t x d)
    (hself : Attached t d → (t.dentry d).isdir = true →
      (t.dentry d).linkCount = 2 + subdirs t d) : Linked t := by
  have ht := h.tree hs hfit
  intro x hx hdir
  by_cases hxd : x = d
  · subst hxd
    exact hself hx hdir
  · have hxs := (h.attached_of_ne hxd).1 hx
    have hdirs := (h.isdir x hxd).symm.trans hdir
    have hadd := h.subdirs_add hs ht x
    rw [hothers x hxd hxs hdirs, hl x hxs hdirs]
    omega

theorem dirEntry_eq (h : Rehung s d place t) (x : ℕ) :
    dirEntry t x d =
      if place.map Prod.fst = some x ∧ (t.dentry d).isdir = true then 1 else 0 := by
  have hiff : (t.dentry x).childList.any (fun entry => entry.2 = d) = true ↔
      place.map Prod.fst = some x := by
    rw [List.any_eq_true, Option.map_eq_some_iff]
    constructor
    · rintro ⟨⟨n, c⟩, hmem, hc⟩
      rw [decide_eq_true_iff] at hc
      rcases h.mem_iff.1 hmem with ⟨_, hne⟩ | ⟨hplace, _⟩
      · exact absurd hc hne
      · exact ⟨(x, n), hplace, rfl⟩
    · rintro ⟨⟨y, n⟩, hplace, rfl⟩
      exact ⟨(n, d), h.mem_iff.2 (.inr ⟨hplace, rfl⟩), decide_eq_true rfl⟩
  unfold dirEntry
  simp only [Bool.and_eq_true, hiff]

end Rehung

theorem dirEntry_of_entry (hs : Tree s) {p d : ℕ} {n : Name}
    (hmem : (n, d) ∈ (s.dentry p).childList) (x : ℕ) :
    dirEntry s x d = if x = p ∧ (s.dentry d).isdir = true then 1 else 0 := by
  have hiff : (s.dentry x).childList.any (fun entry => entry.2 = d) = true ↔ x = p := by
    rw [List.any_eq_true]
    constructor
    · rintro ⟨⟨m, c⟩, hm, hc⟩
      obtain rfl : c = d := of_decide_eq_true hc
      by_contra hx
      exact hs.not_mem_of_parent_ne (hs.entry_parent hmem) hx m hm
    · rintro rfl
      exact ⟨(n, d), hmem, decide_eq_true rfl⟩
  unfold dirEntry
  simp only [Bool.and_eq_true, hiff]

theorem dirEntry_of_fresh (hs : Tree s) (x : ℕ) : dirEntry s x s.next = 0 := by
  unfold dirEntry
  rw [if_neg]
  rw [Bool.and_eq_true, List.any_eq_true]
  rintro ⟨⟨⟨n, c⟩, hmem, hc⟩, _⟩
  rw [decide_eq_true_iff] at hc
  have hlt := hs.attached_lt (.inr ⟨x, n, hmem⟩)
  exact lt_irrefl _ (hc ▸ hlt)

/-- The child lists form a tree and the links agree with it. -/
structure Sound (s : LtfsIndex) : Prop where
  tree : Tree s
  linked : Linked s

theorem Sound.same (hs : Sound s) (h : SameTree s t) : Sound t :=
  ⟨hs.tree.same h, hs.linked.same h⟩

theorem Sound.frame (hs : Sound s) (h : Frame s t) : Sound t := hs.same h.sameTree

/-- New entries go into directories, and a directory gets its entry. -/
structure Lands (s : LtfsIndex) (p : ℕ) (isdir : Bool) (mem : Memory) : Prop where
  inDir : mem.linked = true → (s.dentry p).isdir = true
  entry : isdir = true → mem.linked = true

theorem Lands.frame {p : ℕ} {isdir : Bool} {mem : Memory} (h : Lands s p isdir mem)
    (hst : Frame s t) : Lands t p isdir mem where
  inDir := fun hl => (hst.isdir p).trans (h.inDir hl)
  entry := h.entry

/-! ## Create -/

section Create

variable {p : ℕ} {name : Name} {isdir readonly : Bool} {mem : Memory} {uid : ℕ}

theorem newPlace_fst (x : ℕ) (hlinked : mem.linked = true) :
    (newPlace p name mem).map Prod.fst = some x ↔ x = p := by
  rw [newPlace, if_pos hlinked, Option.map_some, Option.some.injEq]
  exact eq_comm

theorem entered_linkCount {x : ℕ} (hx : x ≠ s.next) :
    ((entered p name isdir readonly mem uid s).dentry x).linkCount =
      (s.dentry x).linkCount + if x = p ∧ isdir = true then 1 else 0 := by
  rw [entered, fsAddKey_field Dentry.linkCount fun _ _ _ => rfl, linkDir_linkCount,
    allocate_dentry_of_ne hx]

/-- A new directory gives its parent a link, so it has to get its entry. -/
theorem entered_sound (hs : Sound s) (hp : Attached s p) (hland : Lands s p isdir mem)
    (hvacant : (s.dentry p).findKey name = none) :
    Sound (entered p name isdir readonly mem uid s) := by
  obtain ⟨e, he⟩ : ∃ e, e = entered p name isdir readonly mem uid s := ⟨_, rfl⟩
  have hre : Rehung s s.next (newPlace p name mem) e := he ▸ entered_rehung hs.tree
  have hfit : Fits s s.next (newPlace p name mem) e :=
    he ▸ entered_fits hs.tree hp hland.inDir hvacant
  have hisdir : (e.dentry s.next).isdir = isdir := by
    rw [he]
    exact entered_self Dentry.isdir (fun _ _ => rfl) fun _ _ _ => rfl
  have hpn : s.next ≠ p := (hs.tree.attached_lt hp).ne'
  rw [← he]
  refine ⟨hre.tree hs.tree hfit,
    hre.linked hs.tree hfit hs.linked (fun x hx _ _ => ?_) fun _ hd => ?_⟩
  · rw [dirEntry_of_fresh hs.tree, hre.dirEntry_eq, hisdir, he, entered_linkCount hx]
    cases isdir with
    | false => simp
    | true => simp [newPlace_fst x (hland.entry rfl)]
  · have hempty : (e.dentry s.next).childList = [] := by
      rw [hre.lists, hs.tree.fresh_childList le_rfl]
      cases hentries : entriesAt s.next (newPlace p name mem) s.next with
      | nil => rfl
      | cons entry rest =>
        obtain ⟨n, c⟩ := entry
        have hmem : (n, c) ∈ entriesAt s.next (newPlace p name mem) s.next := by
          rw [hentries]; exact List.mem_cons_self
        have hplace := (mem_entriesAt.1 hmem).1
        exact absurd (newPlace_eq_some hplace).2.1 hpn
    have hcount : (e.dentry s.next).linkCount = if isdir then 2 else 1 := by
      rw [he, entered, fsAddKey_field Dentry.linkCount fun _ _ _ => rfl,
        linkDir_linkCount, allocate_dentry_self, if_neg (fun h => hpn h.1), add_zero]
      rfl
    rw [hisdir] at hd
    rw [hcount, hd, subdirs, hempty]
    rfl

theorem CreateOutcome.sound {r : Outcome FsError LtfsIndex ℕ} (hs : Sound s)
    (h : CreateOutcome base refs s p name isdir readonly mem r)
    (hland : (s.dentry p).findKey name = none → Lands s p isdir mem) : Sound r.2 := by
  cases h with
  | unchanged e u hu _ => exact hs.frame hu
  | entered uid s₁ u r hs₁ hp hvacant htree _ _ _ =>
    have hnew : Sound (Fs.entered p name isdir readonly mem uid s₁) :=
      entered_sound (hs.frame hs₁) (hp.frame hs₁) ((hland hvacant).frame hs₁)
        ((hs₁.findKey p name).trans hvacant)
    exact hnew.same htree

end Create

/-! ## Unlink -/

section Unlink

variable {p d : ℕ} {n : Name} {r : Outcome FsError LtfsIndex Unit}

theorem detached_linkCount {x : ℕ} (hx : x ≠ d) :
    ((detached p d s).dentry x).linkCount = (s.dentry x).linkCount +
      if x = p ∧ (s.dentry d).isdir = true then -1 else 0 := by
  rw [detached, linkDir_linkCount, LtfsIndex.modify_dentry_of_ne hx,
    modify_field Dentry.linkCount rfl]

theorem detached_sound (hs : Sound s) (hmem : (n, d) ∈ (s.dentry p).childList)
    (hleaf : (s.dentry d).childList = []) : Sound (detached p d s) := by
  have hre := detached_rehung hs.tree hmem
  have hfit := detached_fits hs.tree hmem hleaf
  refine ⟨hre.tree hs.tree hfit,
    hre.linked hs.tree hfit hs.linked (fun x hx _ _ => ?_) fun hd _ => ?_⟩
  · rw [dirEntry_of_entry hs.tree hmem, hre.dirEntry_eq, detached_linkCount hx]
    split <;> simp [sub_eq_add_neg]
  · have hplace := (hre.attached_self hfit.ne_root).1 hd
    cases hplace

theorem UnlinkOutcome.sound (hs : Sound s) (h : UnlinkOutcome base refs s r) :
    Sound r.2 := by
  cases h with
  | unchanged r u hu _ => exact hs.frame hu
  | removed p d n s₁ u hs₁ hmem hleaf htree _ _ =>
    exact (detached_sound (hs.frame hs₁) hmem hleaf).same htree

theorem UnlinkOutcome.counted (h : UnlinkOutcome base refs s r) :
    Counted base refs r.2 := by
  cases h with
  | unchanged r u _ hc => exact hc
  | removed p d n s₁ u _ _ _ _ _ hc => exact hc

end Unlink

/-! ## Rename -/

section Rename

variable {fromdir todir f : ℕ} {fromName toName : Name} {mem : Memory}
  {r : Outcome FsError LtfsIndex Unit}

theorem Moves.fits (h : Moves s fromdir todir f) (hvacant : Vacant s todir toName f)
    (hland : Lands s todir (s.dentry f).isdir mem) :
    Fits s f (newPlace todir toName mem)
      (relocated fromdir todir f toName mem s) := by
  obtain ⟨n, hmem⟩ := h.entry
  refine relocated_fits h.tree hmem h.target hland.inDir h.loop hvacant fun hlost => ?_
  by_contra hne
  rw [hland.entry (h.tree.owner_isdir hne)] at hlost
  cases hlost

theorem relocated_linkCount (s : LtfsIndex) (fromdir todir f : ℕ) (toName : Name)
    (mem : Memory) (x : ℕ) :
    ((relocated fromdir todir f toName mem s).dentry x).linkCount =
      (s.dentry x).linkCount +
        (if x = fromdir ∧ (s.dentry f).isdir = true then -1 else 0) +
        if x = todir ∧ (s.dentry f).isdir = true then 1 else 0 := by
  rw [relocated, fsAddKey_field Dentry.linkCount fun _ _ _ => rfl,
    modify_field Dentry.linkCount rfl, linkDir_linkCount, linkDir_linkCount,
    modify_field Dentry.linkCount rfl]

theorem Moves.sound (h : Moves s fromdir todir f) (hvacant : Vacant s todir toName f)
    (hl : Linked s) (hland : Lands s todir (s.dentry f).isdir mem) :
    Sound (relocated fromdir todir f toName mem s) := by
  obtain ⟨n, hmem⟩ := h.entry
  obtain ⟨u, hu⟩ : ∃ u, u = relocated fromdir todir f toName mem s := ⟨_, rfl⟩
  have hs := h.tree
  have hff : f ≠ fromdir := hs.entry_ne hmem
  have hft : f ≠ todir := by
    rintro rfl
    exact h.loop (Above.refl f)
  have hre : Rehung s f (newPlace todir toName mem) u := hu ▸ relocated_rehung hs hmem
  have hfit : Fits s f (newPlace todir toName mem) u := hu ▸ h.fits hvacant hland
  have hisdir : (u.dentry f).isdir = (s.dentry f).isdir := by
    rw [hu]
    exact relocated_self Dentry.isdir (fun _ _ => rfl) (fun _ _ _ => rfl) hff
  have hcount (x : ℕ) := hu ▸ relocated_linkCount s fromdir todir f toName mem x
  have hentry (x : ℕ) : dirEntry u x f =
      if x = todir ∧ (s.dentry f).isdir = true then 1 else 0 := by
    rw [hre.dirEntry_eq, hisdir]
    cases hdir : (s.dentry f).isdir with
    | false => simp
    | true => simp [newPlace_fst x (hland.entry hdir)]
  rw [← hu]
  refine ⟨hre.tree hs hfit, hre.linked hs hfit hl (fun x _ _ _ => ?_) fun _ hd => ?_⟩
  · rw [hcount x, dirEntry_of_entry hs hmem, hentry x]
    split <;> split <;> push_cast <;> ring
  · have hadd := hre.subdirs_add hs (hre.tree hs hfit) f
    rw [dirEntry_of_entry hs hmem, hentry f, if_neg (fun hx => hff hx.1),
      if_neg (fun hx => hft hx.1)] at hadd
    have hself := hl f (.inr ⟨fromdir, n, hmem⟩) (hisdir.symm.trans hd)
    rw [hcount f, if_neg (fun hx => hff hx.1), if_neg (fun hx => hft hx.1), hself]
    omega

/-- The dentry that is replaced is neither the source nor the directory. -/
theorem Replaced.isdir_eq (h : Replaced s todir f toName t) (hs : Tree s) :
    (t.dentry f).isdir = (s.dentry f).isdir ∧
      (t.dentry todir).isdir = (s.dentry todir).isdir := by
  cases h with
  | nothing t ht => exact ⟨ht.isdir f, ht.isdir todir⟩
  | target x t hx hxf _ hsame _ =>
    have hre := detached_rehung hs hx
    exact ⟨(hsame.isdir f).trans (hre.isdir f hxf.symm),
      (hsame.isdir todir).trans (hre.isdir todir (hs.entry_ne hx).symm)⟩

theorem Replaced.sound (h : Replaced s todir f toName t) (hs : Sound s) : Sound t := by
  cases h with
  | nothing t ht => exact hs.frame ht
  | target x t hx _ hleaf hsame _ => exact (detached_sound hs hx hleaf).same hsame

theorem Replaced.lands (h : Replaced s todir f toName t) (hs : Tree s)
    (hland : Lands s todir (s.dentry f).isdir mem) :
    Lands t todir (t.dentry f).isdir mem := by
  obtain ⟨hf, hto⟩ := h.isdir_eq hs
  rw [hf]
  exact ⟨fun hl => hto.trans (hland.inDir hl), hland.entry⟩

theorem RenameOutcome.sound (hs : Sound s)
    (h : RenameOutcome base refs s fromdir todir fromName toName mem r)
    (hland : ∀ f, (s.dentry fromdir).findKey fromName = some f →
      Lands s todir (s.dentry f).isdir mem)
    (hsees : (s.dentry todir).Sees mem.targetKey toName)
    (hreplaced : (s.dentry todir).Sees mem.replacedKey toName) : Sound r.2 := by
  cases h with
  | unchanged e u hu _ _ => exact hs.frame hu
  | leaked x e u hu _ _ => exact hs.frame hu
  | stranded x s₁ u _ hkey hx _ _ _ => exact absurd hx (hreplaced.not_found hkey x)
  | stuck f s₁ v u hs₁ _ hrep hu _ _ => exact (hrep.sound (hs.frame hs₁)).frame hu
  | moved f s₁ v u r hs₁ hfind hrep hmoves hvacant htree _ _ _ =>
    have hs' := hs.frame hs₁
    have hland₁ : Lands s₁ todir (s₁.dentry f).isdir mem := by
      rw [hs₁.isdir]
      exact (hland f hfind).frame hs₁
    have hland' := hrep.lands hs'.tree hland₁
    exact (hmoves.sound (hvacant hsees) (hrep.sound hs').linked hland').same htree

theorem RenameOutcome.counted
    (h : RenameOutcome base refs s fromdir todir fromName toName mem r) :
    ∃ base', Counted base' refs r.2 := by
  cases h with
  | unchanged e u _ hc _ => exact ⟨_, hc⟩
  | leaked x e u _ hc _ => exact ⟨_, hc⟩
  | stranded x s₁ u _ _ _ _ _ hc => exact ⟨_, hc⟩
  | stuck f s₁ v u _ _ _ _ _ hc => exact ⟨_, hc⟩
  | moved f s₁ v u r _ _ _ _ _ _ _ _ hc => exact ⟨_, hc⟩

end Rename

/-! ## Sessions -/

theorem Mounted.sound {blocksize : ℕ} (h : Mounted blocksize s) : Sound s := by
  induction h with
  | alloc =>
    refine ⟨ltfsIndexAlloc_tree blocksize, fun p hp _ => ?_⟩
    cases hp with
    | inl hroot => rw [hroot]; rfl
    | inr hentry =>
      obtain ⟨q, n, hmem⟩ := hentry
      rw [ltfsIndexAlloc_childList] at hmem
      cases hmem
  | load p obj s _ hp hdir hnew ih =>
    have hnew : Sound (entered p obj.name obj.isdir obj.readonly {} obj.uid s) :=
      entered_sound ih hp ⟨fun _ => hdir, fun _ => rfl⟩ hnew
    exact hnew.same (loadDentry_sameTree p obj s)

/-- The condition on a call: a create or a rename that reaches its directory makes
its entry in a directory, and does not lose a directory.  The second can only fail
where the insertion into the hash table does.  And what stands under the new name is
found there, by a rename also when it is to be removed, which can only fail where a
key is not copied. -/
def Op.Proper (env : Env) : Op → LtfsIndex → Prop
  | .create path isdir _ _ mem _, s => ∀ norm p, env.admitCreate path = .ok norm →
      resolve env.keys s (fsSplitPath norm).1 root = some p →
      (s.dentry p).Sees mem.nameKey (fsSplitPath norm).2 ∧
        ((s.dentry p).findKey (fsSplitPath norm).2 = none → Lands s p isdir mem)
  | .rename source target mem, s => ∀ from_ to_ fromdir todir,
      env.admitRename source target mem = .ok (from_, to_) →
      resolve env.keys s (fsSplitPath from_).1 root = some fromdir →
      resolve env.targetKeys s (fsSplitPath to_).1 root = some todir →
      (s.dentry todir).Sees mem.targetKey (fsSplitPath to_).2 ∧
        (s.dentry todir).Sees mem.replacedKey (fsSplitPath to_).2 ∧
        ∀ f, (s.dentry fromdir).findKey (fsSplitPath from_).2 = some f →
          Lands s todir (s.dentry f).isdir mem
  | _, _ => True

/-- What every call keeps. -/
structure WellKept (σ : Session) : Prop where
  sound : Sound σ.fs
  counted : ∃ base, Counted base σ.handles σ.fs

theorem WellKept.frame (hσ : WellKept σ) (h : Frame σ.fs t) (hc : Counted base refs t) :
    WellKept ⟨t, refs⟩ :=
  ⟨hσ.sound.frame h, base, hc⟩

theorem WellKept.recounted {d : ℕ} (hσ : WellKept σ) (h : Recounted env base refs d σ.fs t) :
    WellKept ⟨t, refs⟩ :=
  ⟨hσ.sound.same h.tree, base, h.counted⟩

theorem CreateOutcome.wellKept {p : ℕ} {name : Name} {isdir readonly : Bool} {mem : Memory}
    {r : Outcome FsError LtfsIndex ℕ} (hσ : WellKept σ)
    (h : CreateOutcome base σ.handles σ.fs p name isdir readonly mem r)
    (hland : (σ.fs.dentry p).findKey name = none → Lands σ.fs p isdir mem) :
    WellKept (σ.opened r) := by
  refine ⟨h.sound hσ.sound hland, ?_⟩
  cases h with
  | unchanged e u _ hc => exact ⟨base, hc⟩
  | entered uid s₁ u r _ _ _ _ _ hok herr =>
    cases r with
    | ok d => exact ⟨base, (hok d rfl).2⟩
    | error e => exact herr e rfl

theorem OpenOutcome.wellKept {openWrite : Bool} {r : Outcome FsError LtfsIndex ℕ}
    (hσ : WellKept σ) (h : OpenOutcome env openWrite base σ.handles σ.fs r) :
    WellKept (σ.opened r) := by
  cases h with
  | unchanged e t ht hc => exact hσ.frame ht hc
  | refused d e t _ _ ht => exact hσ.recounted ht
  | opened d t _ ht hc => exact hσ.frame ht hc

theorem WellKept.through {d : ℕ} {r : Outcome FsError LtfsIndex Unit} (hσ : WellKept σ)
    (h : Recounted env base σ.handles d σ.fs r.2) : WellKept (σ.through d r) := by
  rw [Session.through]
  split
  · exact hσ.recounted h
  · exact hσ

theorem WellKept.closed {d : ℕ} {dirty openWrite useIosched : Bool} {sched : SchedReply}
    (hσ : WellKept σ) :
    WellKept (σ.closed env d
      (ltfsFsopsClose env d dirty openWrite useIosched sched σ.fs)) := by
  obtain ⟨base, hc⟩ := hσ.counted
  rw [Session.closed]
  split
  · next hd =>
    have hperm := List.perm_cons_erase hd
    have hclose : Recounted env base
        (if env.iosched then σ.handles.erase d else d :: σ.handles.erase d) d σ.fs
        (ltfsFsopsClose env d dirty openWrite useIosched sched σ.fs).2 :=
      (ltfsFsopsClose_spec hσ.sound.tree (hc.perm hperm) rfl).1
    refine ⟨hσ.sound.same hclose.tree, base, hclose.counted.perm ?_⟩
    split
    · exact List.Perm.refl _
    · exact hperm.symm
  · exact hσ

theorem Op.exec_wellKept {op : Op} (hσ : WellKept σ) (hop : op.Proper env σ.fs) :
    WellKept (op.exec env σ) := by
  have hs := hσ.sound.tree
  obtain ⟨base, hc⟩ := hσ.counted
  cases op with
  | create path isdir readonly overwrite mem worm =>
    rcases ltfsFsopsCreate_spec env path isdir readonly overwrite mem worm hs hc rfl with
      ⟨e, t, hr, ht, hct⟩ | ⟨norm, p, hadm, hp, hout⟩
    · rw [Op.exec, hr]
      exact hσ.frame ht hct
    · obtain ⟨hsees, hland⟩ := hop norm p hadm hp
      exact (hout hsees).wellKept hσ hland
  | unlink path =>
    have hout := ltfsFsopsUnlink_spec env path hs hc
    exact ⟨hout.sound hσ.sound, base, hout.counted⟩
  | rename source target mem =>
    rcases ltfsFsopsRename_spec env source target mem hs hc with
      ⟨ht, hct, _⟩ | ⟨from_, to_, fromdir, todir, hadm, hfrom, hto, _, s₁, hs₁, hout⟩
    · exact hσ.frame ht hct
    · obtain ⟨hsees, hreplaced, hland⟩ := hop from_ to_ fromdir todir hadm hfrom hto
      refine ⟨hout.sound (hσ.sound.frame hs₁) (fun f hf => ?_) ?_ ?_, hout.counted⟩
      · rw [hs₁.findKey] at hf
        rw [hs₁.isdir]
        exact (hland f hf).frame hs₁
      · rw [Dentry.Sees, hs₁.findKey]
        exact hsees
      · rw [Dentry.Sees, hs₁.findKey]
        exact hreplaced
  | openFile path openWrite useIosched sched =>
    exact (ltfsFsopsOpen_spec env path openWrite useIosched sched hs hc).wellKept hσ
  | write d append sched => exact hσ.through (ltfsFsopsWrite_spec hc rfl).1
  | truncate d length sched =>
    exact hσ.through (ltfsFsopsTruncate_spec length sched hc rfl).1
  | truncatePath path length sched =>
    obtain ⟨d, _, ht⟩ := ltfsFsopsTruncatePath_spec env path length sched hs hc
    exact hσ.recounted ht
  | close d dirty openWrite useIosched sched => exact hσ.closed

theorem Reached.wellKept {σ₀ : Session} (h₀ : WellKept σ₀) (h : Reached Op.Proper σ₀ σ) :
    WellKept σ := by
  induction h with
  | start => exact h₀
  | call env op σ _ hop ih => exact Op.exec_wellKept ih hop

theorem Mounted.wellKept {blocksize : ℕ} (h : Mounted blocksize s) : WellKept ⟨s, []⟩ :=
  ⟨h.sound, _, h.counted⟩

/-! ## What the name space is -/

/-- The dentries that can be reached from the root. -/
inductive Reach (s : LtfsIndex) : ℕ → Prop
  | root : Reach s root
  | child {p d : ℕ} {n : Name} : Reach s p → (n, d) ∈ (s.dentry p).childList →
      Reach s d

theorem Tree.reach_iff (hs : Tree s) (d : ℕ) : Reach s d ↔ Attached s d := by
  constructor
  · intro h
    cases h with
    | root => exact .inl rfl
    | child _ hmem => exact .inr ⟨_, _, hmem⟩
  · -- By induction along the chain of parents, which ends at the root.
    apply (hs.ends d).induct (P := fun y => Attached s y → Reach s y)
    · intro y hy hatt
      cases hatt with
      | inl hroot => rw [hroot]; exact .root
      | inr hentry =>
        obtain ⟨q, n, hmem⟩ := hentry
        have hparent : s.parent y = some q := hs.entry_parent hmem
        rw [hy] at hparent
        cases hparent
    · intro y p hp ih hatt
      have hmem := hs.entry_of_parent hatt hp
      exact .child (ih (hs.owner_attached (List.ne_nil_of_mem hmem))) hmem

/-- The name space as it should be: a dentry that can be reached is in the list of
the directory its parent pointer names, once and under its own name, and in no
other list; no dentry is above itself; names are distinct; and the links of a
directory are two and one for each subdirectory. -/
structure Namespace (s : LtfsIndex) : Prop where
  placed : ∀ d, Reach s d → d ≠ root → ∃ p, (s.dentry d).parent = some p ∧
    Reach s p ∧ (s.dentry p).isdir = true ∧
    (s.dentry p).childList.count ((s.dentry d).name, d) = 1 ∧
    ∀ q n, (n, d) ∈ (s.dentry q).childList → q = p ∧ n = (s.dentry d).name
  acyclic : ∀ d i, 0 < i → climb s.parent i d ≠ some d
  distinct : ∀ p, Reach s p → ((s.dentry p).childList.map Prod.fst).Nodup
  links : ∀ p, Reach s p → (s.dentry p).isdir = true →
    (s.dentry p).linkCount = 2 + subdirs s p

theorem Tree.placed (hs : Tree s) {d : ℕ} (hd : Reach s d) (hroot : d ≠ root) :
    ∃ p, (s.dentry d).parent = some p ∧ Reach s p ∧ (s.dentry p).isdir = true ∧
      (s.dentry p).childList.count ((s.dentry d).name, d) = 1 ∧
      ∀ q n, (n, d) ∈ (s.dentry q).childList → q = p ∧ n = (s.dentry d).name := by
  obtain ⟨p, n, hmem⟩ := ((hs.reach_iff d).1 hd).resolve_left hroot
  have hp := hs.entry_parent hmem
  have hne := List.ne_nil_of_mem hmem
  refine ⟨p, hp, (hs.reach_iff p).2 (hs.owner_attached hne), hs.owner_isdir hne, ?_, ?_⟩
  · rw [hs.entry_name hmem]
    exact List.count_eq_one_of_mem (hs.nodup p).of_map hmem
  · intro q m hq
    have hparent := hs.entry_parent hq
    rw [hp, Option.some.injEq] at hparent
    exact ⟨hparent.symm, (hs.entry_name hq).symm⟩

theorem Sound.namespace (hs : Sound s) : Namespace s where
  placed := fun _ hd hroot => hs.tree.placed hd hroot
  acyclic := fun d _ hi => (hs.tree.ends d).climb_ne_self hi
  distinct := fun p _ => hs.tree.nodup p
  links := fun p hp hdir => hs.linked p ((hs.tree.reach_iff p).1 hp) hdir

/-- In every session on a mounted volume whose calls enter into directories and
lose none, the name space is as it should be after every call. -/
theorem namespace_of_reached {blocksize : ℕ} (hs : Mounted blocksize s)
    {σ : Session} (hrun : Reached Op.Proper ⟨s, []⟩ σ) : Namespace σ.fs :=
  (hrun.wellKept hs.wellKept).sound.namespace

/-- `/a` is made and then renamed to `/b`. -/
theorem namespace_of_reached_rename :
    Namespace ((Op.rename (.ok [[0x61]]) (.ok [[0x62]]) {}).exec {}
      ((Op.create (.ok [[0x61]]) true false false {} none).exec {}
        ⟨ltfsIndexAlloc 512, []⟩)).fs := by
  refine namespace_of_reached Mounted.alloc (.call _ _ _ (.call _ _ _ .start ?_) ?_)
  · intro norm p hadm hp
    cases hadm
    cases hp
    exact ⟨.inl rfl, fun _ => ⟨fun _ => rfl, fun _ => rfl⟩⟩
  · intro from_ to_ fromdir todir hadm _ hto
    cases hadm
    cases hto
    exact ⟨.inl rfl, .inl rfl, fun f _ => ⟨fun _ => rfl, fun _ => rfl⟩⟩

/-- Making `/a` fails at the insertion and leaves the root with a link too many;
making `/f/x` below a file succeeds; and so do making `/a` twice, if there is no
memory to look for the first, and a rename of `/a` to `/b`, if there is none to look
for the `/b` it removes. -/
theorem namespace_lost :
    ¬ Namespace ((Op.create (.ok [[0x61]]) true false false
        { linked := false, failed := true } none).exec {} ⟨ltfsIndexAlloc 512, []⟩).fs ∧
    ¬ Namespace ((Op.create (.ok [[0x66], [0x78]]) false false false {} none).exec {}
      ((Op.create (.ok [[0x66]]) false false false {} none).exec {}
        ⟨ltfsIndexAlloc 512, []⟩)).fs ∧
    ¬ Namespace ((Op.create (.ok [[0x61]]) false false false { nameKey := false }
      none).exec {} ((Op.create (.ok [[0x61]]) false false false {} none).exec {}
        ⟨ltfsIndexAlloc 512, []⟩)).fs ∧
    ¬ Namespace ((Op.rename (.ok [[0x61]]) (.ok [[0x62]]) { replacedKey := false }).exec
      {} ((Op.create (.ok [[0x62]]) false false false {} none).exec {}
        ((Op.create (.ok [[0x61]]) false false false {} none).exec {}
          ⟨ltfsIndexAlloc 512, []⟩))).fs := by
  refine ⟨?_, ?_, ?_, ?_⟩
  · intro h
    have hlinks := h.links root .root rfl
    revert hlinks
    decide
  · intro h
    have hchild : Reach ((Op.create (.ok [[0x66], [0x78]]) false false false {} none).exec
        {} ((Op.create (.ok [[0x66]]) false false false {} none).exec {}
          ⟨ltfsIndexAlloc 512, []⟩)).fs 2 :=
      .child (.child .root (p := 0) (d := 1) (n := [0x66]) (by decide))
        (n := [0x78]) (by decide)
    obtain ⟨p, hp, _, hdir, _⟩ := h.placed 2 hchild (by decide)
    cases hp
    revert hdir
    decide
  · intro h
    have hnodup := h.distinct root .root
    revert hnodup
    decide
  · intro h
    obtain ⟨p, hp, _⟩ := h.placed 2 (.child .root (n := [0x62]) (by decide)) (by decide)
    cases hp

end AuroraLtfs.Fs
