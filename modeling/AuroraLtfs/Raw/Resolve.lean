import AuroraLtfs.Lib.Segments
import AuroraLtfs.Raw.Extent

/-!
# Where the bytes of a file lie on the tape

An extent list resolves a file offset to a byte of a tape block, or to nothing in
a hole.  The walk that lays an extent over the list changes this map on the offsets
of the extent only, whatever is on the tape (`addExtent_overlays`).
-/

namespace AuroraLtfs.Raw

open AuroraLtfs.Tape

/-- A byte of a tape block. -/
@[ext]
structure Place where
  partition : Part
  block : ℕ
  byte : ℕ
  deriving DecidableEq, Repr

/-- The byte `k` bytes behind the start of a block. -/
def placeAt (bs : ℕ) (p : Part) (block k : ℕ) : Place := ⟨p, block + k / bs, k % bs⟩

/-- Where an extent has the file offset `i`. -/
def Extent.place (bs : ℕ) (e : Extent) (i : ℕ) : Place :=
  placeAt bs e.partition e.block (e.byteoffset + (i - e.fileoffset))

/-- Extents as segments of places. -/
def places (bs : ℕ) : Segments Extent Place where
  lo e := e.fileoffset
  hi e := e.fileoffsetEnd
  get e i := e.place bs i

section Pieces

variable {bs : ℕ} {e ext entry : Extent} {start stop i : ℕ}

theorem div_mod_shift (hbs : 0 < bs) (x y : ℕ) :
    (x + y) / bs = x / bs + (x % bs + y) / bs ∧
      (x + y) % bs = (x % bs + y) % bs := by
  have hx := Nat.div_add_mod x bs
  constructor
  · conv_lhs => rw [← hx, Nat.add_assoc, Nat.mul_add_div hbs]
  · conv_lhs => rw [← hx, Nat.add_assoc, Nat.mul_add_mod]

/-- Counting from a later block leads to the same place. -/
theorem placeAt_shift (hbs : 0 < bs) (p : Part) (block x y : ℕ) :
    placeAt bs p (block + x / bs) (x % bs + y) = placeAt bs p block (x + y) := by
  obtain ⟨hdiv, hmod⟩ := div_mod_shift hbs x y
  simp only [placeAt, hdiv, hmod, Nat.add_assoc]

theorem trimBegin_fileoffset (bs : ℕ) (hlo : e.fileoffset ≤ start) :
    (e.trimBegin bs start).fileoffset = start := by
  simp only [Extent.trimBegin]
  omega

theorem trimBegin_fileoffsetEnd (bs : ℕ) (hlo : e.fileoffset ≤ start)
    (hhi : start ≤ e.fileoffsetEnd) :
    (e.trimBegin bs start).fileoffsetEnd = e.fileoffsetEnd := by
  simp only [Extent.trimBegin, Extent.fileoffsetEnd] at hhi ⊢
  omega

/-- The two counts of an offset behind `start`, from the start of the trimmed
extent and from that of the whole. -/
theorem trimBegin_count (hlo : e.fileoffset ≤ start) (hi : start ≤ i) :
    start - e.fileoffset + e.byteoffset +
      (i - (e.fileoffset + (start - e.fileoffset))) =
        e.byteoffset + (i - e.fileoffset) := by
  omega

theorem trimBegin_place (hbs : 0 < bs) (hlo : e.fileoffset ≤ start) (hi : start ≤ i) :
    (e.trimBegin bs start).place bs i = e.place bs i := by
  simp only [Extent.place, Extent.trimBegin]
  rw [placeAt_shift hbs, trimBegin_count hlo hi]

theorem trimEnd_fileoffsetEnd (hlo : e.fileoffset ≤ stop) :
    (e.trimEnd stop).fileoffsetEnd = stop := by
  simp only [Extent.trimEnd, Extent.fileoffsetEnd]
  omega

/-- An extent and the one that continues it on the tape, as one extent. -/
def Extent.join (e ext : Extent) : Extent :=
  { e with bytecount := e.bytecount + ext.bytecount }

theorem continuedBy_fileoffset (h : e.continuedBy bs ext) :
    ext.fileoffset = e.fileoffsetEnd := by
  simp only [Extent.continuedBy, decide_eq_true_eq] at h
  exact h.1

theorem join_fileoffsetEnd (h : e.continuedBy bs ext) :
    (e.join ext).fileoffsetEnd = ext.fileoffsetEnd := by
  have hoffset := continuedBy_fileoffset h
  simp only [Extent.join, Extent.fileoffsetEnd] at hoffset ⊢
  omega

/-- Past the end of `e` the joined extent counts on into the blocks of
`ext`. -/
theorem join_shift (h : e.continuedBy bs ext) (hi : ext.fileoffset ≤ i) :
    ext.block = e.block + (e.byteoffset + e.bytecount) / bs ∧
      ext.byteoffset + (i - ext.fileoffset) =
        (e.byteoffset + e.bytecount) % bs + (i - ext.fileoffset) ∧
      e.byteoffset + e.bytecount + (i - ext.fileoffset) =
        e.byteoffset + (i - e.fileoffset) := by
  simp only [Extent.continuedBy, decide_eq_true_eq] at h
  obtain ⟨hoffset, -, halign, hblock, hzero⟩ := h
  simp only [Extent.fileoffsetEnd] at hoffset
  refine ⟨hblock.symm, ?_, ?_⟩ <;> omega

theorem join_place (hbs : 0 < bs) (h : e.continuedBy bs ext)
    (hi : ext.fileoffset ≤ i) : (e.join ext).place bs i = ext.place bs i := by
  obtain ⟨hblock, hoffset, htotal⟩ := join_shift h hi
  simp only [Extent.continuedBy, decide_eq_true_eq] at h
  simp only [Extent.place, Extent.join]
  rw [← h.2.1, hblock, hoffset, placeAt_shift hbs, htotal]

/-! ## One entry -/

/-- What is left of `entry` once `ext` has been laid over it. -/
def remains (cut : Option Extent × List Extent × ℕ) : List Extent :=
  cut.1.toList ++ cut.2.1

/-- The pieces that are left lie where the entry was, outside `ext`, with the
places they had. -/
structure CutSpec (bs : ℕ) (ext entry : Extent)
    (cut : Option Extent × List Extent × ℕ) : Prop where
  inside : ∀ e ∈ remains cut, entry.fileoffset ≤ e.fileoffset ∧
    e.fileoffsetEnd ≤ entry.fileoffsetEnd
  ordered : (places bs).Ordered (remains cut)
  lookup : ∀ i, (places bs).lookup (remains cut) i =
    if ext.fileoffset ≤ i ∧ i < ext.fileoffsetEnd then none
    else (places bs).lookup [entry] i
  behind : ∀ e ∈ cut.2.1, ext.fileoffsetEnd ≤ e.fileoffset
  aside : ∀ e, cut.1 = some e → e.fileoffsetEnd ≤ ext.fileoffset ∨
    ext.fileoffsetEnd ≤ e.fileoffset

theorem cutEntry_spec (hbs : 0 < bs) (ext entry : Extent) :
    CutSpec bs ext entry (cutEntry bs ext entry) := by
  have hspan : ext.fileoffset ≤ ext.fileoffsetEnd := Nat.le_add_right _ _
  -- the places of the two trimmed forms, where they are used
  have hbegin : ∀ start i, entry.fileoffset ≤ start → start ≤ i →
      (entry.trimBegin bs start).place bs i = entry.place bs i :=
    fun start i hlo hi => trimBegin_place hbs hlo hi
  have hend : ∀ stop i, (entry.trimEnd stop).place bs i = entry.place bs i :=
    fun stop i => rfl
  rw [cutEntry]
  split_ifs with hover hcovered hinside htail
  · refine ⟨by simp [remains], by simp [remains, Segments.Ordered], ?_, by simp, by simp⟩
    intro i
    simp only [remains, Option.toList_none, List.nil_append,
      Segments.lookup_nil, Segments.lookup_cons, places]
    grind
  · have hstart := trimBegin_fileoffset bs hover.2.le
    have hstop := trimBegin_fileoffsetEnd bs hover.2.le (not_le.1 hcovered).le
    refine ⟨?_, by simp [remains, Segments.Ordered], ?_, by simp, ?_⟩
    · simp [remains, hstart, hstop, hover.2.le]
    · intro i
      simp only [remains, Option.toList_some, List.append_nil,
        Segments.lookup_cons, Segments.lookup_nil, places]
      grind
    · simp [hstart]
  · have hstop := trimEnd_fileoffsetEnd (e := entry) hinside.1.le
    have hlo : (entry.trimEnd ext.fileoffset).fileoffset = entry.fileoffset := rfl
    refine ⟨?_, by simp [remains, Segments.Ordered], ?_, by simp, ?_⟩
    · simp [remains, hstop, hlo, hinside.2.le]
    · intro i
      simp only [remains, Option.toList_some, List.append_nil,
        Segments.lookup_cons, Segments.lookup_nil, places]
      grind
    · simp [hstop]
  · -- split: a piece on either side
    have hle : entry.fileoffset ≤ ext.fileoffsetEnd := by omega
    have hstart := trimBegin_fileoffset bs hle
    have hstop := trimBegin_fileoffsetEnd bs hle (not_le.1 htail).le
    have hstop' := trimEnd_fileoffsetEnd (e := entry) hinside.1.le
    have hlo : (entry.trimEnd ext.fileoffset).fileoffset = entry.fileoffset := rfl
    refine ⟨?_, ?_, ?_, ?_, ?_⟩
    · simp only [remains, Option.toList_some, List.cons_append,
        List.nil_append, List.mem_cons, List.not_mem_nil, or_false]
      rintro e (rfl | rfl) <;> omega
    · simp [remains, Segments.Ordered, places, hstart, hstop', hspan]
    · intro i
      simp only [remains, Option.toList_some, List.cons_append,
        List.nil_append, Segments.lookup_cons, Segments.lookup_nil, places]
      grind
    · simp [hstart]
    · simp [hstop']
  · refine ⟨by simp [remains], by simp [remains, Segments.Ordered], ?_, by simp, ?_⟩
    · intro i
      simp only [remains, Option.toList_some, List.append_nil,
        Segments.lookup_cons, Segments.lookup_nil, places]
      grind
    · simp only [Option.some.injEq]
      rintro e rfl
      omega

end Pieces

/-! ## The walk -/

section Walk

variable {bs : ℕ} {e ext entry : Extent} {rev after : List Extent} {Q : Extent → Prop}

/-- `ext` joined to the entry it continues. -/
theorem overlays_join (hbs : 0 < bs) (hcontinued : e.continuedBy bs ext)
    (hordered : (places bs).Ordered after)
    (hafter : ∀ x ∈ after, ext.fileoffsetEnd ≤ x.fileoffset) :
    (places bs).Overlays ext (e :: after) (e.join ext :: after) := by
  have hstop := join_fileoffsetEnd hcontinued
  have hoffset := continuedBy_fileoffset hcontinued
  have hspan : e.fileoffset ≤ e.fileoffsetEnd := Nat.le_add_right _ _
  have hspan' : ext.fileoffset ≤ ext.fileoffsetEnd := Nat.le_add_right _ _
  constructor
  · rw [Segments.ordered_cons]
    refine ⟨fun x hx => ?_, hordered⟩
    change (e.join ext).fileoffsetEnd ≤ x.fileoffset
    rw [hstop]
    exact hafter x hx
  · intro i
    have hnew : ext.fileoffset ≤ i → (e.join ext).place bs i = ext.place bs i :=
      join_place hbs hcontinued
    have hold : (e.join ext).place bs i = e.place bs i := rfl
    have hlo : (e.join ext).fileoffset = e.fileoffset := rfl
    simp only [Segments.lookup_cons, places, hlo, hstop]
    by_cases hi : ext.fileoffset ≤ i ∧ i < ext.fileoffsetEnd
    · rw [if_pos hi, if_pos ⟨by omega, hi.2⟩, hnew hi.1]
    · rw [if_neg hi]
      by_cases hcovers : e.fileoffset ≤ i ∧ i < e.fileoffsetEnd
      · rw [if_pos hcovers, if_pos ⟨hcovers.1, by omega⟩, hold]
      · rw [if_neg hcovers, if_neg (by omega)]

/-- The entry the walk is at may be replaced by what `ext` leaves of it. -/
theorem ordered_remains {front : List Extent}
    (hspec : CutSpec bs ext entry (cutEntry bs ext entry))
    (hordered : (places bs).Ordered (front ++ entry :: after)) :
    (places bs).Ordered (front ++ (remains (cutEntry bs ext entry) ++ after)) := by
  obtain ⟨hfront, htail, hbetween⟩ := (Segments.ordered_append _).1 hordered
  obtain ⟨hentry, hafter⟩ := (Segments.ordered_cons _).1 htail
  simp only [Segments.ordered_append]
  refine ⟨hfront, ⟨hspec.ordered, hafter, ?_⟩, ?_⟩
  · intro e he x hx
    exact (hspec.inside e he).2.trans (hentry x hx)
  · intro e he x hx
    cases List.mem_append.1 hx with
    | inl hx => exact (hbetween e he entry (by simp)).trans (hspec.inside x hx).1
    | inr hx => exact hbetween e he x (by simp [hx])

theorem addWalk_overlays (hbs : 0 < bs) (ext : Extent) (rev after : List Extent)
    (realsize : ℕ) (hordered : (places bs).Ordered (rev.reverse ++ after))
    (hafter : ∀ e ∈ after, ext.fileoffsetEnd ≤ e.fileoffset) :
    (places bs).Overlays ext (rev.reverse ++ after)
      (addWalk bs ext rev after realsize).1 := by
  induction rev generalizing after realsize with
  | nil => exact Segments.overlays_head hordered hafter
  | cons entry prev ih =>
    rw [List.reverse_cons, List.append_assoc, List.singleton_append] at hordered ⊢
    have hspec := cutEntry_spec hbs ext entry
    have hreplaced := ordered_remains hspec hordered
    have hsame : ∀ i, ¬(ext.fileoffset ≤ i ∧ i < ext.fileoffsetEnd) →
        (places bs).lookup (prev.reverse ++
          (remains (cutEntry bs ext entry) ++ after)) i =
        (places bs).lookup (prev.reverse ++ entry :: after) i := by
      intro i hi
      rw [← List.singleton_append]
      simp only [Segments.lookup_append, hspec.lookup i, if_neg hi]
    refine Segments.Overlays.of_lookup ?_ hsame
    rw [addWalk]
    generalize cutEntry bs ext entry = cut at hspec hreplaced ⊢
    obtain ⟨left, behind, less⟩ := cut
    have hbehind : ∀ x ∈ behind ++ after, ext.fileoffsetEnd ≤ x.fileoffset := by
      intro x hx
      cases List.mem_append.1 hx with
      | inl hx => exact hspec.behind x hx
      | inr hx => exact hafter x hx
    cases left with
    | none => exact ih (behind ++ after) _ hreplaced hbehind
    | some e =>
      have hassoc : remains (some e, behind, less) ++ after = e :: (behind ++ after) := rfl
      rw [hassoc] at hreplaced ⊢
      obtain ⟨hprev, htail, hbelow⟩ := (Segments.ordered_append _).1 hreplaced
      obtain ⟨hhead, hrest⟩ := (Segments.ordered_cons _).1 htail
      have hspan : e.fileoffset ≤ e.fileoffsetEnd := Nat.le_add_right _ _
      have hspan' : ext.fileoffset ≤ ext.fileoffsetEnd := Nat.le_add_right _ _
      have hfront : ∀ x ∈ prev.reverse, x.fileoffsetEnd ≤ e.fileoffset :=
        fun x hx => hbelow x hx e (by simp)
      have habove : e.fileoffset ≤ ext.fileoffset →
          ∀ x ∈ behind ++ after, e.fileoffset ≤ x.fileoffset :=
        fun h x hx => (h.trans hspan').trans (hbehind x hx)
      dsimp only
      split_ifs with hcontinued hend
      · have hstart : e.fileoffset ≤ ext.fileoffset :=
          hspan.trans (continuedBy_fileoffset hcontinued).ge
        rw [List.append_assoc]
        apply (overlays_join hbs hcontinued hrest hbehind).append hprev hfront hstart
        intro x hx
        cases List.mem_cons.1 hx with
        | inl hx => rw [hx]; exact le_rfl
        | inr hx => exact habove hstart x hx
      · have hstart : e.fileoffset ≤ ext.fileoffset := hspan.trans hend
        rw [List.append_assoc]
        refine ((Segments.overlays_head hrest hbehind).cons hend ?_).append hprev
          hfront hstart ?_
        · intro x hx
          cases List.mem_cons.1 hx with
          | inl hx => rw [hx]; exact hend
          | inr hx => exact hhead x hx
        · intro x hx
          simp only [List.mem_cons] at hx
          rcases hx with hx | hx | hx
          · rw [hx]; exact le_rfl
          · rw [hx]; exact hstart
          · exact habove hstart x hx
      · have haside := (hspec.aside e rfl).resolve_left hend
        apply ih (e :: behind ++ after) _ hreplaced
        intro x hx
        cases List.mem_cons.1 hx with
        | inl hx => rw [hx]; exact haside
        | inr hx => exact hbehind x hx

/-! ## Properties of single extents -/

/-- A property that trimming and joining keep. -/
structure Stable (bs : ℕ) (Q : Extent → Prop) : Prop where
  trimBegin : ∀ {e start}, Q e → e.fileoffset ≤ start → start < e.fileoffsetEnd →
    Q (e.trimBegin bs start)
  trimEnd : ∀ {e stop}, Q e → e.fileoffset < stop → stop ≤ e.fileoffsetEnd →
    Q (e.trimEnd stop)
  join : ∀ {e ext}, Q e → Q ext → e.continuedBy bs ext → Q (e.join ext)

theorem Stable.cutEntry (hQ : Stable bs Q) (ext : Extent) (h : Q entry) :
    ∀ e ∈ remains (cutEntry bs ext entry), Q e := by
  rw [Raw.cutEntry]
  split_ifs with hover hcovered hinside htail
  · simp [remains]
  · simp only [remains, Option.toList_some, List.append_nil, List.mem_singleton, forall_eq]
    exact hQ.trimBegin h hover.2.le (not_le.1 hcovered)
  · simp only [remains, Option.toList_some, List.append_nil, List.mem_singleton, forall_eq]
    exact hQ.trimEnd h hinside.1 hinside.2.le
  · simp only [remains, Option.toList_some, List.cons_append, List.nil_append,
      List.mem_cons, List.not_mem_nil, or_false]
    rintro e (rfl | rfl)
    · exact hQ.trimEnd h hinside.1 hinside.2.le
    · have hle : entry.fileoffset ≤ ext.fileoffsetEnd := by
        simp only [Extent.fileoffsetEnd] at hinside ⊢
        omega
      exact hQ.trimBegin h hle (not_le.1 htail)
  · simpa [remains] using h

theorem Stable.addWalk (hQ : Stable bs Q) (hext : Q ext) (rev after : List Extent)
    (realsize : ℕ) (hrev : ∀ e ∈ rev, Q e) (hafter : ∀ e ∈ after, Q e) :
    ∀ e ∈ (addWalk bs ext rev after realsize).1, Q e := by
  induction rev generalizing after realsize with
  | nil => simpa [Raw.addWalk] using ⟨hext, hafter⟩
  | cons entry prev ih =>
    have hleft := hQ.cutEntry ext (hrev entry (by simp))
    have hprev : ∀ e ∈ prev, Q e := fun e he => hrev e (by simp [he])
    rw [Raw.addWalk]
    generalize Raw.cutEntry bs ext entry = cut at hleft ⊢
    obtain ⟨left, behind, less⟩ := cut
    simp only [remains, List.mem_append] at hleft
    have hbehind : ∀ e ∈ behind ++ after, Q e := by
      intro e he
      cases List.mem_append.1 he with
      | inl he => exact hleft e (.inr he)
      | inr he => exact hafter e he
    cases left with
    | none => exact ih _ _ hprev hbehind
    | some x =>
      have hx : Q x := hleft x (by simp)
      dsimp only
      split_ifs with hcontinued hend
      · intro e he
        simp only [List.append_assoc, List.mem_append, List.mem_reverse,
          List.cons_append, List.mem_cons] at he
        rcases he with he | rfl | he
        · exact hprev e he
        · exact hQ.join hx hext hcontinued
        · exact hbehind e (List.mem_append.2 he)
      · intro e he
        simp only [List.append_assoc, List.mem_append, List.mem_reverse,
          List.cons_append, List.mem_cons] at he
        rcases he with he | rfl | rfl | he
        · exact hprev e he
        · exact hx
        · exact hext
        · exact hbehind e (List.mem_append.2 he)
      · apply ih _ _ hprev
        intro e he
        cases List.mem_cons.1 he with
        | inl he => rw [he]; exact hx
        | inr he => exact hbehind e he

/-- Extents of a positive number of bytes. -/
theorem stable_positive (bs : ℕ) : Stable bs fun e => 0 < e.bytecount where
  trimBegin := by
    intro e start _ hlo hhi
    simp only [Extent.trimBegin, Extent.fileoffsetEnd] at hhi ⊢
    omega
  trimEnd := by
    intro e stop _ hlo _
    simp only [Extent.trimEnd]
    omega
  join h _ _ := Nat.add_pos_left h _

/-- `_ltfs_fsraw_add_extent_unlocked` leaves an ordered list of disjoint extents of
positive length.  It resolves the offsets of the new extent to the places of that
extent, and every other offset as before. -/
theorem addExtent_overlays (hbs : 0 < bs) (hext : 0 < ext.bytecount) {d : Dentry}
    (hordered : (places bs).Ordered d.extents)
    (hpositive : ∀ e ∈ d.extents, 0 < e.bytecount) :
    (places bs).Ordered (addExtent bs ext d).extents ∧
      (∀ e ∈ (addExtent bs ext d).extents, 0 < e.bytecount) ∧
      ∀ i, (places bs).lookup (addExtent bs ext d).extents i =
        if ext.fileoffset ≤ i ∧ i < ext.fileoffsetEnd then some (ext.place bs i)
        else (places bs).lookup d.extents i := by
  have hwalk := addWalk_overlays hbs ext d.extents.reverse [] d.realsize
    (by simpa using hordered) (by simp)
  rw [List.reverse_reverse, List.append_nil] at hwalk
  have hstays := (stable_positive bs).addWalk hext d.extents.reverse [] d.realsize
    (by simpa using hpositive) (by simp)
  exact ⟨hwalk.ordered, hstays, hwalk.lookup⟩

/-- An extent of six bytes in blocks of four, split by one that lies inside. -/
theorem addExtent_overlays_split :
    let ext : Extent := ⟨.dp, 9, 0, 2, 2⟩
    let d : Dentry := ⟨6, 6, [⟨.dp, 5, 1, 6, 0⟩]⟩
    (addExtent 4 ext d).extents =
        [⟨.dp, 5, 1, 2, 0⟩, ⟨.dp, 9, 0, 2, 2⟩, ⟨.dp, 6, 1, 2, 4⟩] ∧
      (places 4).lookup (addExtent 4 ext d).extents 4 = (places 4).lookup d.extents 4 := by
  refine ⟨by decide, ?_⟩
  have h := @addExtent_overlays 4 ⟨.dp, 9, 0, 2, 2⟩ (by decide) (by decide)
    ⟨6, 6, [⟨.dp, 5, 1, 6, 0⟩]⟩ (by simp [Segments.Ordered]) (by simp)
  exact h.2.2 4

/-! ## Truncation -/

/-- The walk of a truncation ends no extent behind one of the list. -/
theorem truncateWalk_end_le (length : ℕ) (rev : List Extent) (realsize : ℕ) :
    ∀ e ∈ (truncateWalk length rev realsize).1,
      ∃ x ∈ rev, e.fileoffsetEnd ≤ x.fileoffsetEnd := by
  induction rev generalizing realsize with
  | nil => simp [truncateWalk]
  | cons entry prev ih =>
    intro e he
    rw [truncateWalk] at he
    split_ifs at he with hpast hacross
    · obtain ⟨x, hx, hle⟩ := ih _ e he
      exact ⟨x, by simp [hx], hle⟩
    · cases List.mem_append.1 he with
      | inl he =>
        obtain ⟨x, hx, hle⟩ := ih _ e he
        exact ⟨x, by simp [hx], hle⟩
      | inr he =>
        refine ⟨entry, by simp, ?_⟩
        rw [List.mem_singleton.1 he, trimEnd_fileoffsetEnd (by omega)]
        exact hacross.le
    · exact ⟨e, by simpa [or_comm] using he, le_rfl⟩

theorem truncateWalk_forall
    (htrim : ∀ {e stop}, Q e → e.fileoffset < stop → stop ≤ e.fileoffsetEnd → Q (e.trimEnd stop))
    (length : ℕ) (rev : List Extent) (realsize : ℕ) (hrev : ∀ e ∈ rev, Q e) :
    ∀ e ∈ (truncateWalk length rev realsize).1, Q e := by
  induction rev generalizing realsize with
  | nil => simp [truncateWalk]
  | cons entry prev ih =>
    have hprev : ∀ e ∈ prev, Q e := fun e he => hrev e (by simp [he])
    intro e he
    rw [truncateWalk] at he
    split_ifs at he with hpast hacross
    · exact ih _ hprev e he
    · cases List.mem_append.1 he with
      | inl he => exact ih _ hprev e he
      | inr he =>
        rw [List.mem_singleton.1 he]
        exact htrim (hrev entry (by simp)) (by omega) hacross.le
    · exact hrev e (by simpa [or_comm] using he)

/-- `ltfs_fsraw_truncate` resolves the offsets below the new length as before, and
no other. -/
theorem truncateWalk_cuts (bs length : ℕ) (rev : List Extent) (realsize : ℕ)
    (hordered : (places bs).Ordered rev.reverse) :
    (places bs).Ordered (truncateWalk length rev realsize).1 ∧
      (∀ e ∈ (truncateWalk length rev realsize).1, e.fileoffsetEnd ≤ length) ∧
      ∀ i, (places bs).lookup (truncateWalk length rev realsize).1 i =
        if i < length then (places bs).lookup rev.reverse i else none := by
  induction rev generalizing realsize with
  | nil => simp [truncateWalk, Segments.Ordered]
  | cons entry prev ih =>
    rw [List.reverse_cons] at hordered
    obtain ⟨hprev, -, hbetween⟩ := (Segments.ordered_append _).1 hordered
    have hbelow : ∀ e ∈ prev, e.fileoffsetEnd ≤ entry.fileoffset :=
      fun e he => hbetween e (by simpa using he) entry (by simp)
    rw [truncateWalk, List.reverse_cons]
    split_ifs with hpast hacross
    · obtain ⟨hord, hall, hlookup⟩ := ih (realsize - entry.bytecount) hprev
      refine ⟨hord, hall, ?_⟩
      intro i
      rw [hlookup i, Segments.lookup_append]
      split_ifs with hi
      · have hnone : (places bs).lookup [entry] i = none := by
          apply Segments.lookup_eq_none
          intro s hs
          rw [List.mem_singleton.1 hs]
          left
          change i < entry.fileoffset
          omega
        simp [hnone]
      · rfl
    · obtain ⟨hord, hall, hlookup⟩ := ih (realsize - (entry.fileoffsetEnd - length)) hprev
      have hentry : entry.fileoffset < length := by omega
      have hstop := trimEnd_fileoffsetEnd (e := entry) hentry.le
      refine ⟨?_, ?_, ?_⟩
      · rw [Segments.ordered_append]
        refine ⟨hord, by simp [Segments.Ordered], ?_⟩
        intro e he x hx
        rw [List.mem_singleton.1 hx]
        obtain ⟨y, hy, hle⟩ := truncateWalk_end_le length prev _ e he
        exact hle.trans (hbelow y hy)
      · intro e he
        cases List.mem_append.1 he with
        | inl he => exact hall e he
        | inr he =>
          rw [List.mem_singleton.1 he]
          exact hstop.le
      · intro i
        simp only [Segments.lookup_append, hlookup i, Segments.lookup_cons,
          Segments.lookup_nil]
        have hlo : (places bs).lo (entry.trimEnd length) = (places bs).lo entry := rfl
        have hget : (places bs).get (entry.trimEnd length) i =
          (places bs).get entry i := rfl
        have hhi : (places bs).hi (entry.trimEnd length) = length := hstop
        have hhi' : (places bs).hi entry = entry.fileoffsetEnd := rfl
        rw [hlo, hget, hhi, hhi']
        by_cases hi : i < length
        · simp only [hi, if_true, and_true, hi.trans hacross]
        · simp [hi]
    · -- this entry and all before it stay
      have hkept : ∀ e ∈ prev.reverse ++ [entry], e.fileoffsetEnd ≤ length := by
        intro e he
        have hspan : entry.fileoffset ≤ entry.fileoffsetEnd := Nat.le_add_right _ _
        cases List.mem_append.1 he with
        | inl he =>
          have := hbelow e (by simpa using he)
          omega
        | inr he =>
          rw [List.mem_singleton.1 he]
          omega
      refine ⟨hordered, hkept, ?_⟩
      intro i
      split_ifs with hi
      · rfl
      · apply Segments.lookup_eq_none
        intro s hs
        exact .inr ((hkept s hs).trans (not_lt.1 hi))

end Walk

end AuroraLtfs.Raw
