import AuroraLtfs.Raw.Books

/-!
# Extents removed after a permanent write error

After a permanent write error `ltfs_fsraw_cleanup_extent` walks the tree and
removes the extents whose blocks did not reach the medium.  It keeps every extent
that lies wholly before the error, but it counts the blocks of an extent without
its byte offset, takes the bytes of a removed extent off the file size wherever the
extent lies, and leaves `realsize` as it was.
-/

namespace AuroraLtfs.Raw

open AuroraLtfs.Tape

/-- The children of a directory, in the order the walk comes to them. -/
inductive Children where
  | nil
  | file (d : Dentry) (rest : Children)
  | dir (children rest : Children)
  deriving DecidableEq, Repr

/-- All files of the tree. -/
def Children.files : Children → List Dentry
  | .nil => []
  | .file d rest => d :: rest.files
  | .dir children rest => children.files ++ rest.files

/-- The last block of an extent, as `ltfs_fsraw_cleanup_extent` computes it. -/
def cleanupLast (bs : ℕ) (e : Extent) : ℕ :=
  let last := e.block + e.bytecount / bs
  if e.bytecount % bs = 0 then last - 1 else last

/-- Is the extent removed? -/
def doomed (bs : ℕ) (err : Position) (e : Extent) : Bool :=
  e.block ≠ 0 ∧ e.bytecount ≠ 0 ∧ e.partition = err.partition ∧
    err.block ≤ cleanupLast bs e

/-- What the walk has come to: the extents or children, the size of the file, the
value it would return, and how often the volume lock was asked for. -/
structure Cleaned (α : Type*) where
  left : α
  ret : Option TapeError
  asked : ℕ

section Walk

variable (lock : ℕ → Option TapeError) (bs : ℕ) (err : Position)

/-- The reverse walk over the extents of one file, last first.  A volume lock that is
refused ends it. -/
def cleanupExtents : List Extent → ℕ → Option TapeError → ℕ →
    Cleaned (List Extent × ℕ) × Bool
  | [], size, ret, asked => (⟨([], size), ret, asked⟩, true)
  | e :: prev, size, ret, asked =>
    if doomed bs err e then
      match lock asked with
      | some error => (⟨((e :: prev).reverse, size), some error, asked + 1⟩, false)
      | none => cleanupExtents prev (size - e.bytecount) none (asked + 1)
    else
      let walked := cleanupExtents prev size ret asked
      ({ walked.1 with left := (walked.1.left.1 ++ [e], walked.1.left.2) }, walked.2)

/-- `ltfs_fsraw_cleanup_extent`.  A refused lock ends the walk of the directory; the
directory above goes on with its next child, and its value is returned instead. -/
def ltfsFsrawCleanupExtent : Children → Option TapeError → ℕ → Cleaned Children
  | .nil, ret, asked => ⟨.nil, ret, asked⟩
  | .dir children rest, _, asked =>
    let inner := ltfsFsrawCleanupExtent children none asked
    let outer := ltfsFsrawCleanupExtent rest inner.ret inner.asked
    { outer with left := .dir inner.left outer.left }
  | .file d rest, ret, asked =>
    let walked := cleanupExtents lock bs err d.extents.reverse d.size ret asked
    let cleaned := { d with extents := walked.1.left.1, size := walked.1.left.2 }
    if walked.2 then
      let outer := ltfsFsrawCleanupExtent rest walked.1.ret walked.1.asked
      { outer with left := .file cleaned outer.left }
    else { walked.1 with left := .file cleaned rest }

end Walk

/-! ## What it should do -/

/-- The last block that holds bytes of the extent. -/
def Extent.lastBlock (bs : ℕ) (e : Extent) : ℕ :=
  e.block + (e.byteoffset + e.bytecount - 1) / bs

/-- The extent covers a block that is not on the medium. -/
def Extent.Reaches (bs : ℕ) (err : Position) (e : Extent) : Prop :=
  e.partition = err.partition ∧ err.block ≤ e.lastBlock bs

instance (bs : ℕ) (err : Position) : DecidablePred (Extent.Reaches bs err) :=
  fun _ => inferInstanceAs (Decidable (_ ∧ _))

/-- What becomes of a file in any case: extents are only removed, none of them lies
wholly before the error, and the size does not grow. -/
structure Pruned (bs : ℕ) (err : Position) (d d' : Dentry) : Prop where
  sub : d'.extents.Sublist d.extents
  keeps : (d.extents.filter fun e => ¬e.Reaches bs err).Sublist d'.extents
  size : d'.size ≤ d.size

/-- What should become of a file: nothing of it is left that is not on the medium,
and its size and real size fit the extents that are left. -/
structure CleanedUp (bs : ℕ) (err : Position) (d d' : Dentry) : Prop
    extends Pruned bs err d d' where
  clean : ∀ e ∈ d'.extents, ¬e.Reaches bs err
  realsize : d'.realsize = bytesOf d'.extents
  ends : ∀ e ∈ d'.extents, e.fileoffsetEnd ≤ d'.size

section Facts

variable {lock : ℕ → Option TapeError} {bs : ℕ} {err : Position}

/-- The computed last block is not behind the true one. -/
theorem cleanupLast_le_lastBlock (bs : ℕ) {e : Extent} (he : 0 < e.bytecount) :
    cleanupLast bs e ≤ e.lastBlock bs := by
  have hless : (e.bytecount - 1) / bs ≤ (e.byteoffset + e.bytecount - 1) / bs :=
    Nat.div_le_div_right (by omega)
  have hdiv : (e.bytecount - 1 + 1) / bs =
      (e.bytecount - 1) / bs + if bs ∣ e.bytecount - 1 + 1 then 1 else 0 :=
    Nat.succ_div
  rw [Nat.sub_add_cancel he] at hdiv
  simp only [cleanupLast, Extent.lastBlock, ← Nat.dvd_iff_mod_eq_zero]
  generalize (e.byteoffset + e.bytecount - 1) / bs = last at hless ⊢
  generalize e.bytecount / bs = count at hdiv ⊢
  split_ifs at hdiv ⊢ <;> omega

theorem doomed_reaches {e : Extent} (h : doomed bs err e) : e.Reaches bs err := by
  simp only [doomed, decide_eq_true_eq] at h
  obtain ⟨-, hbytes, hpartition, hlast⟩ := h
  exact ⟨hpartition, hlast.trans (cleanupLast_le_lastBlock bs (Nat.pos_of_ne_zero hbytes))⟩

/-- The walk over the extents of one file: a removed extent is doomed, and if one is
removed the others have fewer bytes. -/
theorem cleanupExtents_spec (rev : List Extent) (size : ℕ) (ret : Option TapeError)
    (asked : ℕ) :
    let left := (cleanupExtents lock bs err rev size ret asked).1.left
    left.1.Sublist rev.reverse ∧
      (rev.reverse.filter fun e => ¬doomed bs err e).Sublist left.1 ∧
      left.2 ≤ size ∧
      (left = (rev.reverse, size) ∨ bytesOf left.1 < bytesOf rev) := by
  induction rev generalizing size ret asked with
  | nil => simp [cleanupExtents]
  | cons e prev ih =>
    rw [cleanupExtents]
    by_cases hdoomed : doomed bs err e = true
    · rw [if_pos hdoomed]
      cases lock asked with
      | some error =>
        exact ⟨List.Sublist.refl _, List.filter_sublist, le_rfl, .inl rfl⟩
      | none =>
        obtain ⟨hsub, hkeeps, hsize, hbytes⟩ := ih (size - e.bytecount) none (asked + 1)
        have he : 0 < e.bytecount := by
          simp only [doomed, decide_eq_true_eq] at hdoomed
          omega
        simp only [List.reverse_cons, List.filter_append, List.filter_cons, hdoomed,
          List.filter_nil, List.append_nil, not_true_eq_false, decide_false,
          Bool.false_eq_true, if_false, bytesOf_cons]
        refine ⟨hsub.trans (List.sublist_append_left _ _), hkeeps, by omega, .inr ?_⟩
        cases hbytes with
        | inl heq =>
          rw [heq, bytesOf_reverse]
          omega
        | inr hless => omega
    · rw [if_neg hdoomed]
      obtain ⟨hsub, hkeeps, hsize, hbytes⟩ := ih size ret asked
      simp only [List.reverse_cons, List.filter_append, List.filter_cons, hdoomed,
        List.filter_nil, bytesOf_append, bytesOf_cons, bytesOf_nil]
      refine ⟨hsub.append_right _, hkeeps.append_right _, hsize, ?_⟩
      cases hbytes with
      | inl heq => simp [heq]
      | inr hless => exact .inr (by omega)

/-- One file: in any case it is pruned, and its real size stays; if an extent was
removed, that is too large. -/
structure FilePruned (bs : ℕ) (err : Position) (d d' : Dentry) : Prop
    extends Pruned bs err d d' where
  realsize : d'.realsize = d.realsize
  removed : d' = d ∨ bytesOf d'.extents < bytesOf d.extents

theorem FilePruned.refl (bs : ℕ) (err : Position) (d : Dentry) :
    FilePruned bs err d d where
  sub := List.Sublist.refl _
  keeps := List.filter_sublist
  size := le_rfl
  realsize := rfl
  removed := .inl rfl

theorem cleanupFile_pruned (d : Dentry) (ret : Option TapeError) (asked : ℕ) :
    FilePruned bs err d
      { d with
        extents := (cleanupExtents lock bs err d.extents.reverse d.size ret
          asked).1.left.1
        size := (cleanupExtents lock bs err d.extents.reverse d.size ret
          asked).1.left.2 } := by
  obtain ⟨hsub, hkeeps, hsize, hbytes⟩ :=
    @cleanupExtents_spec lock bs err d.extents.reverse d.size ret asked
  rw [List.reverse_reverse] at hsub hkeeps hbytes
  refine ⟨⟨hsub, ?_, hsize⟩, rfl, ?_⟩
  · refine List.Sublist.trans (List.monotone_filter_right _ ?_) hkeeps
    intro e he
    simp only [decide_eq_true_eq] at he ⊢
    exact fun hdoomed => he (doomed_reaches hdoomed)
  · cases hbytes with
    | inl heq => left; simp [heq]
    | inr hless => exact .inr (by simpa using hless)

/-- What the walk leaves of one file, if it comes to it with nothing asked for. -/
def cleanupFile (lock : ℕ → Option TapeError) (bs : ℕ) (err : Position) (d : Dentry) :
    Dentry :=
  let left := (cleanupExtents lock bs err d.extents.reverse d.size none 0).1.left
  { d with extents := left.1, size := left.2 }

/-- Without extents behind the error nothing is removed. -/
theorem cleanupFile_eq (lock : ℕ → Option TapeError) {d : Dentry}
    (h : ∀ e ∈ d.extents, doomed bs err e = false) : cleanupFile lock bs err d = d := by
  obtain ⟨hsub, hkeeps, -, hbytes⟩ :=
    @cleanupExtents_spec lock bs err d.extents.reverse d.size none 0
  rw [List.reverse_reverse] at hsub hkeeps hbytes
  have hall : (d.extents.filter fun e => ¬doomed bs err e) = d.extents := by
    rw [List.filter_eq_self]
    intro e he
    simp [h e he]
  rw [hall] at hkeeps
  have hextents := hsub.antisymm hkeeps
  rw [cleanupFile]
  cases hbytes with
  | inl heq => simp [heq]
  | inr hless =>
    rw [hextents, bytesOf_reverse] at hless
    exact absurd hless (lt_irrefl _)

/-- Every file of the tree is pruned, and none is lost. -/
theorem ltfsFsrawCleanupExtent_pruned (c : Children) (ret : Option TapeError)
    (asked : ℕ) :
    List.Forall₂ (FilePruned bs err) c.files
      (ltfsFsrawCleanupExtent lock bs err c ret asked).left.files := by
  induction c generalizing ret asked with
  | nil => exact .nil
  | dir children rest ihc ihr => exact List.rel_append (ihc _ _) (ihr _ _)
  | file d rest ih =>
    have hfile := @cleanupFile_pruned lock bs err d ret asked
    simp only [ltfsFsrawCleanupExtent]
    split_ifs
    · exact .cons hfile (ih _ _)
    · exact .cons hfile (List.forall₂_same.2 fun d _ => FilePruned.refl bs err d)

/-- A file is cleaned up as it should be if and only if there was nothing to clean
up. -/
theorem FilePruned.cleanedUp_iff {d d' : Dentry} (h : FilePruned bs err d d')
    (hd : d.WellFormed bs) :
    CleanedUp bs err d d' ↔ ∀ e ∈ d.extents, ¬e.Reaches bs err := by
  constructor
  · intro hclean
    have hsame : d' = d := by
      cases h.removed with
      | inl heq => exact heq
      | inr hless =>
        rw [← hd.realsize, ← hclean.realsize, h.realsize] at hless
        exact absurd hless (lt_irrefl _)
    rw [hsame] at hclean
    exact hclean.clean
  · intro hnone
    have hall : (d.extents.filter fun e => ¬e.Reaches bs err) = d.extents := by
      rw [List.filter_eq_self]
      intro e he
      simpa using hnone e he
    have hextents : d'.extents = d.extents := by
      have hkeeps := h.keeps
      rw [hall] at hkeeps
      exact h.sub.antisymm hkeeps
    have hsame : d' = d := by
      cases h.removed with
      | inl heq => exact heq
      | inr hless =>
        rw [hextents] at hless
        exact absurd hless (lt_irrefl _)
    subst hsame
    exact ⟨h.toPruned, hnone, hd.realsize, hd.size⟩

end Facts

/-- In every tree, extents are only removed, none that lies wholly before the error,
and no file grows.  The files come out as they should if and only if no extent of any
of them reaches the error. -/
theorem ltfsFsrawCleanupExtent_cleanedUp_iff (lock : ℕ → Option TapeError) (bs : ℕ)
    (err : Position) (c : Children) (hc : ∀ d ∈ c.files, d.WellFormed bs) :
    List.Forall₂ (Pruned bs err) c.files
        (ltfsFsrawCleanupExtent lock bs err c none 0).left.files ∧
      (List.Forall₂ (CleanedUp bs err) c.files
          (ltfsFsrawCleanupExtent lock bs err c none 0).left.files ↔
        ∀ d ∈ c.files, ∀ e ∈ d.extents, ¬e.Reaches bs err) := by
  have hpruned := @ltfsFsrawCleanupExtent_pruned lock bs err c none 0
  generalize (ltfsFsrawCleanupExtent lock bs err c none 0).left.files = after at hpruned ⊢
  generalize c.files = before at hc hpruned ⊢
  refine ⟨hpruned.imp fun _ _ h => h.toPruned, ?_⟩
  induction hpruned with
  | nil => simp
  | cons hfile _ ih =>
    rw [List.forall₂_cons, hfile.cleanedUp_iff (hc _ (by simp)),
      ih fun d hd => hc d (by simp [hd])]
    simp

/-- A file of two extents in a directory, and an error in the blocks behind them. -/
theorem ltfsFsrawCleanupExtent_cleanedUp_iff_behind :
    let d : Dentry := ⟨8, 8, [⟨.dp, 5, 0, 4, 0⟩, ⟨.dp, 6, 0, 4, 4⟩]⟩
    List.Forall₂ (CleanedUp 4 ⟨.dp, 7⟩) [d]
      (ltfsFsrawCleanupExtent (fun _ => none) 4 ⟨.dp, 7⟩ (.dir (.file d .nil) .nil)
        none 0).left.files := by
  intro d
  refine (ltfsFsrawCleanupExtent_cleanedUp_iff (fun _ => none) 4 ⟨.dp, 7⟩
    (.dir (.file d .nil) .nil) ?_).2.2 ?_
  · simp only [Children.files, List.append_nil, List.mem_singleton, forall_eq]
    exact ⟨by simp [d, Extent.fileoffsetEnd], by simp [d], by simp [d], by decide,
      by simp [d, Extent.fileoffsetEnd]⟩
  · decide

/-- Blocks of four bytes, and an error at block six.  An extent that begins in the
middle of block five reaches block six, and is kept.  An extent that is removed from
the beginning of a file takes its bytes off the end of the file, and what is left
reaches beyond the size.  The real size counts the removed bytes. -/
theorem ltfsFsrawCleanupExtent_leaves :
    (ltfsFsrawCleanupExtent (fun _ => none) 4 ⟨.dp, 6⟩
        (.file ⟨4, 4, [⟨.dp, 5, 2, 4, 0⟩]⟩ .nil) none 0).left.files =
      [⟨4, 4, [⟨.dp, 5, 2, 4, 0⟩]⟩] ∧
    (⟨.dp, 5, 2, 4, 0⟩ : Extent).Reaches 4 ⟨.dp, 6⟩ ∧
    (ltfsFsrawCleanupExtent (fun _ => none) 4 ⟨.dp, 6⟩
        (.file ⟨8, 8, [⟨.dp, 6, 0, 4, 0⟩, ⟨.dp, 5, 0, 4, 4⟩]⟩ .nil) none 0).left.files =
      [⟨4, 8, [⟨.dp, 5, 0, 4, 4⟩]⟩] := by
  decide

end AuroraLtfs.Raw
