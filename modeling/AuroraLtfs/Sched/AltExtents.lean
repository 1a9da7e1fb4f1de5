import AuroraLtfs.Lib.Runs
import AuroraLtfs.Raw.Resolve
import AuroraLtfs.Sched.File

/-!
# The alternate extents of a file

The extents a file has on the index partition are kept in a list of their own until
they are pushed into the file, each over those before it.  The list is in the order of
file offsets, but not disjoint: an extent inside of another one stands behind it, and
is not split off.  What counts is that at every offset the last entry that covers it
is the one that was written last.

An extent that continues an entry on the tape is appended to it, and so takes its
place in the list.  This is safe because such an entry is the last one written: no
entry behind it reaches below its end.
-/

namespace AuroraLtfs.Sched

open AuroraLtfs.Raw

/-- The first tape byte of an extent, counted from the start of its partition. -/
def tapeStart (bs : ℕ) (e : Extent) : ℕ := e.block * bs + e.byteoffset

def tapeEnd (bs : ℕ) (e : Extent) : ℕ := tapeStart bs e + e.bytecount

/-- What the last entry that covers an offset has there. -/
def newest (bs : ℕ) (es : List Extent) (i : ℕ) : Option Place :=
  (places bs).lookup es.reverse i

section Walk

variable {bs F i : ℕ} {e ext entry : Extent} {es rest es' : List Extent}

theorem lookup_one (bs : ℕ) (e : Extent) (i : ℕ) : (places bs).lookup [e] i =
    if e.fileoffset ≤ i ∧ i < e.fileoffsetEnd then some (e.place bs i) else none := rfl

theorem newest_cons (bs : ℕ) (e : Extent) (es : List Extent) (i : ℕ) :
    newest bs (e :: es) i = (newest bs es i).or ((places bs).lookup [e] i) := by
  rw [newest, List.reverse_cons, Segments.lookup_append]
  rfl

theorem newest_eq_none (h : ∀ e ∈ es, i < e.fileoffset ∨ e.fileoffsetEnd ≤ i) :
    newest bs es i = none := by
  apply Segments.lookup_eq_none
  intro e he
  exact h e (List.mem_reverse.1 he)

theorem trimBegin_tapeEnd {start : ℕ} (hlo : e.fileoffset ≤ start)
    (hhi : start ≤ e.fileoffsetEnd) : tapeEnd bs (e.trimBegin bs start) = tapeEnd bs e := by
  simp only [tapeEnd, tapeStart, Extent.trimBegin, Extent.fileoffsetEnd] at hhi ⊢
  have hdiv := Nat.div_add_mod (start - e.fileoffset + e.byteoffset) bs
  rw [Nat.add_mul, Nat.mul_comm (_ / bs) bs]
  omega

theorem trimEnd_tapeEnd {stop : ℕ} (hlo : e.fileoffset ≤ stop)
    (hhi : stop < e.fileoffsetEnd) : tapeEnd bs (e.trimEnd stop) < tapeEnd bs e := by
  simp only [tapeEnd, tapeStart, Extent.trimEnd, Extent.fileoffsetEnd] at hhi ⊢
  omega

/-- Outside of what is cut off, a trimmed extent has what it had. -/
theorem lookup_trimBegin (hbs : 0 < bs) {start : ℕ} (hlo : e.fileoffset ≤ start)
    (hhi : start ≤ e.fileoffsetEnd) (hi : i < e.fileoffset ∨ start ≤ i) :
    (places bs).lookup [e.trimBegin bs start] i = (places bs).lookup [e] i := by
  rw [lookup_one, lookup_one, trimBegin_fileoffset bs hlo,
    trimBegin_fileoffsetEnd bs hlo hhi]
  by_cases hcovers : start ≤ i ∧ i < e.fileoffsetEnd
  · rw [if_pos hcovers, if_pos (by omega), trimBegin_place hbs hlo hcovers.1]
  · rw [if_neg hcovers, if_neg (by omega)]

theorem lookup_trimEnd {stop : ℕ} (hlo : e.fileoffset ≤ stop)
    (hhi : stop ≤ e.fileoffsetEnd) (hi : i < stop ∨ e.fileoffsetEnd ≤ i) :
    (places bs).lookup [e.trimEnd stop] i = (places bs).lookup [e] i := by
  have hstart : (e.trimEnd stop).fileoffset = e.fileoffset := rfl
  rw [lookup_one, lookup_one, trimEnd_fileoffsetEnd hlo, hstart]
  by_cases hcovers : e.fileoffset ≤ i ∧ i < stop
  · rw [if_pos hcovers, if_pos (by omega)]
    rfl
  · rw [if_neg hcovers, if_neg (by omega)]

/-- What the entry of an extent continued on the tape says about the two. -/
theorem tapeEnd_of_continued (hzero : ext.byteoffset = 0)
    (halign : (entry.byteoffset + entry.bytecount) % bs = 0)
    (hblock : entry.block + (entry.byteoffset + entry.bytecount) / bs = ext.block) :
    tapeEnd bs entry = tapeStart bs ext := by
  have hdiv := Nat.div_add_mod (entry.byteoffset + entry.bytecount) bs
  rw [tapeEnd, tapeStart, tapeStart, ← hblock, hzero, Nat.add_mul, Nat.mul_comm (_ / bs) bs]
  omega

/-- The list in order of file offsets, and no entry behind one that ends at `F` on the
tape reaches below the end of that one. -/
structure AltInv (bs F : ℕ) (es : List Extent) : Prop where
  settled : es.Pairwise fun a b => a.fileoffset ≤ b.fileoffset ∧
    (tapeEnd bs a = F → a.fileoffsetEnd ≤ b.fileoffset)
  positive : ∀ e ∈ es, 0 < e.bytecount
  onIp : ∀ e ∈ es, e.partition = .ip
  written : ∀ e ∈ es, tapeEnd bs e ≤ F

theorem AltInv.tail (h : AltInv bs F (entry :: rest)) : AltInv bs F rest where
  settled := (List.pairwise_cons.1 h.settled).2
  positive e he := h.positive e (by simp [he])
  onIp e he := h.onIp e (by simp [he])
  written e he := h.written e (by simp [he])

/-- An entry in front of a list. -/
theorem AltInv.cons (h : AltInv bs F rest) (hpositive : 0 < entry.bytecount)
    (hip : entry.partition = .ip) (hwritten : tapeEnd bs entry ≤ F)
    (hlo : ∀ y ∈ rest, entry.fileoffset ≤ y.fileoffset)
    (hlast : tapeEnd bs entry = F → ∀ y ∈ rest, entry.fileoffsetEnd ≤ y.fileoffset) :
    AltInv bs F (entry :: rest) where
  settled := List.pairwise_cons.2 ⟨fun y hy => ⟨hlo y hy, fun hF => hlast hF y hy⟩, h.settled⟩
  positive := List.forall_mem_cons.2 ⟨hpositive, h.positive⟩
  onIp := List.forall_mem_cons.2 ⟨hip, h.onIp⟩
  written := List.forall_mem_cons.2 ⟨hwritten, h.written⟩

theorem AltInv.mono {G : ℕ} (h : AltInv bs F es) (hFG : F < G) : AltInv bs G es where
  settled := by
    apply h.settled.imp_of_mem
    intro a b ha _ hab
    have := h.written a ha
    exact ⟨hab.1, fun hG => by omega⟩
  positive := h.positive
  onIp := h.onIp
  written e he := (h.written e he).trans hFG.le

/-! ## Behind the new extent -/

/-- The entries from the place of `ext` on make room for it. -/
structure Cleared (bs F : ℕ) (ext : Extent) (es es' : List Extent) : Prop where
  inv : AltInv bs F es'
  behind : ∀ y ∈ es', ext.fileoffsetEnd ≤ y.fileoffset
  lower : ∀ k, (∀ x ∈ es, k ≤ x.fileoffset) → ∀ y ∈ es', k ≤ y.fileoffset
  newest : ∀ i, newest bs es' i =
    if ext.fileoffset ≤ i ∧ i < ext.fileoffsetEnd then none else newest bs es i

theorem altWalk_used (hbs : 0 < bs) (h : AltInv bs F es)
    (hlo : ∀ e ∈ es, ext.fileoffset ≤ e.fileoffset) :
    Cleared bs F ext es (altWalk bs ext true es) := by
  induction es with
  | nil => exact ⟨h, by simp [altWalk], by simp [altWalk], by simp [altWalk, newest]⟩
  | cons entry rest ih =>
    have hrest := ih h.tail fun e he => hlo e (by simp [he])
    have hentry := hlo entry (by simp)
    have hpositive := h.positive entry (by simp)
    have hsettled := (List.pairwise_cons.1 h.settled).1
    have hend : entry.fileoffsetEnd = entry.fileoffset + entry.bytecount := rfl
    rw [altWalk]
    rw [if_neg (by omega), if_neg (by omega), if_neg (by omega)]
    simp only [not_true_eq_false, false_and, if_false, List.nil_append, true_or,
      decide_true]
    split_ifs with hcovered hover
    · -- the entry is deleted
      refine ⟨hrest.inv, hrest.behind, fun k hk => ?_, fun i => ?_⟩
      · exact hrest.lower k fun x hx => hk x (by simp [hx])
      · rw [hrest.newest, newest_cons, lookup_one]
        split_ifs <;> first | rfl | omega | simp
    · -- the entry is cut from its beginning
      have hstart := trimBegin_fileoffset bs hover.le
      have hstop := trimBegin_fileoffsetEnd bs hover.le (not_le.1 hcovered).le
      have htape := @trimBegin_tapeEnd bs entry _ hover.le (not_le.1 hcovered).le
      refine ⟨hrest.inv.cons ?_ (h.onIp entry (by simp)) ?_ ?_ ?_, ?_, fun k hk => ?_,
        fun i => ?_⟩
      · simp only [Extent.fileoffsetEnd] at hcovered hover
        simp only [Extent.trimBegin, Extent.fileoffsetEnd]
        omega
      · rw [htape]
        exact h.written entry (by simp)
      · rw [hstart]
        exact hrest.behind
      · rw [htape, hstop]
        exact fun hF => hrest.lower _ fun x hx => (hsettled x hx).2 hF
      · exact List.forall_mem_cons.2 ⟨hstart.ge, hrest.behind⟩
      · refine List.forall_mem_cons.2 ⟨?_, hrest.lower k fun x hx => hk x (by simp [hx])⟩
        rw [hstart]
        exact (hk entry (by simp)).trans hover.le
      · rw [newest_cons, hrest.newest, newest_cons]
        by_cases hi : ext.fileoffset ≤ i ∧ i < ext.fileoffsetEnd
        · rw [if_pos hi, if_pos hi, lookup_one, hstart, if_neg (by omega)]
          rfl
        · rw [if_neg hi, if_neg hi, lookup_trimBegin hbs hover.le (not_le.1 hcovered).le
            (by omega)]
    · -- the rest of the list lies behind
      have hfar : ∀ y ∈ entry :: rest, ext.fileoffsetEnd ≤ y.fileoffset := by
        refine List.forall_mem_cons.2 ⟨not_lt.1 hover, fun y hy => ?_⟩
        exact (not_lt.1 hover).trans (hsettled y hy).1
      refine ⟨h, hfar, fun k hk => hk, fun i => ?_⟩
      split_ifs with hi
      · exact newest_eq_none fun y hy => .inl (hi.2.trans_le (hfar y hy))
      · rfl

/-! ## The whole walk -/

/-- From the first entry that does not start before `ext` on, `ext` has its place. -/
theorem altWalk_here (h : ext.fileoffset ≤ entry.fileoffset) :
    altWalk bs ext false (entry :: rest) = ext :: altWalk bs ext true (entry :: rest) := by
  simp only [altWalk, h, Bool.false_eq_true, not_false_eq_true, and_self, or_true,
    decide_true, if_true, not_true_eq_false, false_and, true_or, if_false,
    List.nil_append, List.cons_append]
  split_ifs <;> rfl

/-- The list after an insertion. -/
structure Inserted (bs : ℕ) (ext : Extent) (es es' : List Extent) : Prop where
  inv : AltInv bs (tapeEnd bs ext) es'
  lower : ∀ k, k ≤ ext.fileoffset → (∀ x ∈ es, k ≤ x.fileoffset) →
    ∀ y ∈ es', k ≤ y.fileoffset
  newest : ∀ i, newest bs es' i =
    if ext.fileoffset ≤ i ∧ i < ext.fileoffsetEnd then some (ext.place bs i)
    else newest bs es i

/-- An entry before the place of `ext`, or what is left of it. -/
theorem Inserted.cons {e' : Extent} (h : Inserted bs ext es es')
    (hpositive : 0 < e'.bytecount) (hip : e'.partition = .ip)
    (hwritten : tapeEnd bs e' < tapeEnd bs ext) (hstart : e'.fileoffset = e.fileoffset)
    (hlo : e.fileoffset ≤ ext.fileoffset) (hes : ∀ x ∈ es, e.fileoffset ≤ x.fileoffset)
    (hsame : ∀ i, ¬(ext.fileoffset ≤ i ∧ i < ext.fileoffsetEnd) →
      (places bs).lookup [e'] i = (places bs).lookup [e] i) :
    Inserted bs ext (e :: es) (e' :: es') := by
  refine ⟨h.inv.cons hpositive hip hwritten.le ?_ ?_, ?_, ?_⟩
  · rw [hstart]
    exact h.lower _ hlo hes
  · exact fun heq => absurd heq hwritten.ne
  · intro k hk hall
    refine List.forall_mem_cons.2 ⟨?_, h.lower k hk fun x hx => hall x (by simp [hx])⟩
    rw [hstart]
    exact hall e (by simp)
  · intro i
    rw [newest_cons, newest_cons, h.newest]
    split_ifs with hi
    · rfl
    · rw [hsame i hi]

variable (hbs : 0 < bs) (hpositive : 0 < ext.bytecount) (hip : ext.partition = .ip)
  (hwritten : F ≤ tapeStart bs ext)

include hpositive hip hwritten in
/-- In front of entries that have made room for it. -/
theorem Cleared.inserted (h : Cleared bs F ext es es') :
    Inserted bs ext es (ext :: es') := by
  have hF : F < tapeEnd bs ext := by
    rw [tapeEnd]
    omega
  refine ⟨(h.inv.mono hF).cons hpositive hip le_rfl ?_ fun _ => h.behind, ?_, ?_⟩
  · exact fun y hy => (Nat.le_add_right _ _).trans (h.behind y hy)
  · exact fun k hk hall => List.forall_mem_cons.2 ⟨hk, h.lower k hall⟩
  · intro i
    rw [newest_cons, h.newest, lookup_one]
    split_ifs <;> simp

omit hip in
include hbs hpositive hwritten in
/-- `ext` appended to the entry it continues, which is the last one written. -/
theorem Cleared.joined (h : Cleared bs F ext es es') (hcontinued : entry.continuedBy bs ext)
    (hentry : entry.partition = .ip) (htape : tapeEnd bs entry = tapeStart bs ext) :
    Inserted bs ext (entry :: es) (entry.join ext :: es') := by
  have hF : F < tapeEnd bs ext := by
    rw [tapeEnd]
    omega
  have hstart := continuedBy_fileoffset hcontinued
  have hstop := join_fileoffsetEnd hcontinued
  have hjoined : tapeEnd bs (entry.join ext) = tapeEnd bs ext := by
    simp only [tapeEnd, tapeStart, Extent.join] at htape ⊢
    omega
  have hlo : entry.fileoffset ≤ ext.fileoffset := by
    rw [hstart]
    exact Nat.le_add_right _ _
  have hspan : ext.fileoffset ≤ ext.fileoffsetEnd := Nat.le_add_right _ _
  refine ⟨(h.inv.mono hF).cons (Nat.add_pos_right _ hpositive) hentry hjoined.le ?_ ?_,
    ?_, ?_⟩
  · exact fun y hy => hlo.trans (hspan.trans (h.behind y hy))
  · rw [hstop]
    exact fun _ => h.behind
  · intro k _ hall
    refine List.forall_mem_cons.2 ⟨hall entry (by simp), h.lower k fun x hx => ?_⟩
    exact hall x (by simp [hx])
  · intro i
    rw [newest_cons, newest_cons, h.newest, lookup_one, lookup_one, hstop]
    have hfrom : (entry.join ext).fileoffset = entry.fileoffset := rfl
    rw [hfrom]
    by_cases hi : ext.fileoffset ≤ i ∧ i < ext.fileoffsetEnd
    · rw [if_pos hi, if_pos hi, if_pos ⟨hlo.trans hi.1, hi.2⟩, Option.none_or,
        join_place hbs hcontinued hi.1]
    · rw [if_neg hi, if_neg hi]
      by_cases hcovers : entry.fileoffset ≤ i ∧ i < entry.fileoffsetEnd
      · rw [if_pos hcovers, if_pos (by omega)]
        rfl
      · rw [if_neg hcovers, if_neg (by omega)]

include hbs hpositive hip hwritten in
theorem altWalk_inserted (h : AltInv bs F es) :
    Inserted bs ext es (altWalk bs ext false es) := by
  induction es with
  | nil =>
    have hnil : Cleared bs F ext [] [] := ⟨h, by simp, by simp, by simp [newest]⟩
    exact hnil.inserted hpositive hip hwritten
  | cons entry rest ih =>
    have hsettled := (List.pairwise_cons.1 h.settled).1
    have hcount := h.positive entry (by simp)
    have hbefore : tapeEnd bs entry ≤ F := h.written entry (by simp)
    have htape : tapeEnd bs ext = tapeStart bs ext + ext.bytecount := rfl
    have hend : entry.fileoffsetEnd = entry.fileoffset + entry.bytecount := rfl
    have hspan : ext.fileoffsetEnd = ext.fileoffset + ext.bytecount := rfl
    by_cases hhere : ext.fileoffset ≤ entry.fileoffset
    · rw [altWalk_here hhere]
      apply (altWalk_used hbs h _).inserted hpositive hip hwritten
      exact List.forall_mem_cons.2 ⟨hhere, fun x hx => hhere.trans (hsettled x hx).1⟩
    · have hrest := ih h.tail
      have hstays : Inserted bs ext (entry :: rest) (entry :: altWalk bs ext false rest) :=
        hrest.cons hcount (h.onIp entry (by simp)) (by omega) rfl (by omega)
          (fun x hx => (hsettled x hx).1) fun _ _ => rfl
      rw [altWalk]
      simp only [hhere, Bool.false_eq_true, not_false_eq_true, and_false, or_self,
        decide_false, if_false, List.nil_append, not_le.1 hhere, if_true]
      split_ifs with hfar hadjacent hcontinued hcut
      · exact hstays
      · obtain ⟨hzero, halign, hblock⟩ := hcontinued
        have hentry := h.onIp entry (by simp)
        have htape' := tapeEnd_of_continued hzero halign hblock
        have hlast : ∀ x ∈ rest, ext.fileoffset ≤ x.fileoffset := by
          intro x hx
          rw [← hadjacent]
          exact (hsettled x hx).2 (by omega)
        apply (altWalk_used hbs h.tail hlast).joined hbs hpositive hwritten _ hentry htape'
        simp only [Extent.continuedBy, decide_eq_true_eq]
        exact ⟨hadjacent.symm, hentry.trans hip.symm, halign, hblock, hzero⟩
      · exact hstays
      · exact hrest.cons (by simp only [Extent.trimEnd]; omega) (h.onIp entry (by simp))
          (by have := @trimEnd_tapeEnd bs entry ext.fileoffset (by omega) (by omega); omega)
          rfl (by omega) (fun x hx => (hsettled x hx).1)
          fun i hi => lookup_trimEnd (by omega) (by omega) (by omega)
      · exact hstays

end Walk

/-! ## Truncation -/

section Truncate

variable {bs F length : ℕ} {e : Extent} {es : List Extent}

/-- What a truncation leaves of an entry that starts before `length`. -/
def cutAt (length : ℕ) (e : Extent) : Extent :=
  if length < e.fileoffsetEnd then e.trimEnd length else e

theorem truncateAltExtents_cons (length : ℕ) (e : Extent) (es : List Extent) :
    truncateAltExtents length (e :: es) =
      if e.fileoffset < length then cutAt length e :: truncateAltExtents length es
      else truncateAltExtents length es := by
  simp only [truncateAltExtents, List.filter_cons, decide_eq_true_eq]
  split <;> rfl

theorem cutAt_fileoffset (length : ℕ) (e : Extent) :
    (cutAt length e).fileoffset = e.fileoffset := by
  unfold cutAt
  split <;> rfl

theorem lookup_cutAt (hlo : e.fileoffset < length) (i : ℕ) :
    (places bs).lookup [cutAt length e] i =
      if i < length then (places bs).lookup [e] i else none := by
  unfold cutAt
  split_ifs with hcut hi hi
  · exact lookup_trimEnd hlo.le hcut.le (.inl hi)
  · rw [lookup_one, trimEnd_fileoffsetEnd hlo.le, if_neg (by omega)]
  · rfl
  · rw [lookup_one, if_neg (by omega)]

theorem newest_truncate (length : ℕ) (es : List Extent) (i : ℕ) :
    newest bs (truncateAltExtents length es) i =
      if i < length then newest bs es i else none := by
  induction es with
  | nil => simp [truncateAltExtents, newest]
  | cons e es ih =>
    rw [truncateAltExtents_cons, newest_cons]
    by_cases hlo : e.fileoffset < length
    · rw [if_pos hlo, newest_cons, ih, lookup_cutAt hlo]
      split_ifs <;> rfl
    · rw [if_neg hlo, ih]
      split_ifs with hi
      · rw [lookup_one, if_neg (by omega), Option.or_none]
      · rfl

theorem truncateAltExtents_lower {k : ℕ} (h : ∀ x ∈ es, k ≤ x.fileoffset) :
    ∀ y ∈ truncateAltExtents length es, k ≤ y.fileoffset := by
  intro y hy
  obtain ⟨x, hx, rfl⟩ := List.mem_map.1 hy
  have hstart := cutAt_fileoffset length x
  rw [cutAt] at hstart
  rw [hstart]
  exact h x (List.mem_of_mem_filter hx)

theorem AltInv.truncate (h : AltInv bs F es) (length : ℕ) :
    AltInv bs F (truncateAltExtents length es) := by
  induction es with
  | nil => exact h
  | cons e es ih =>
    have hrest := ih h.tail
    have hsettled := (List.pairwise_cons.1 h.settled).1
    have hpositive := h.positive e (by simp)
    have hwritten := h.written e (by simp)
    rw [truncateAltExtents_cons]
    split_ifs with hlo
    · have hlower : ∀ y ∈ truncateAltExtents length es, e.fileoffset ≤ y.fileoffset :=
        truncateAltExtents_lower fun x hx => (hsettled x hx).1
      unfold cutAt
      split_ifs with hcut
      · -- an entry that is cut no longer ends where the last one written does
        have htape := @trimEnd_tapeEnd bs e length hlo.le hcut
        refine hrest.cons ?_ (h.onIp e (by simp)) (by omega) hlower fun hF => by omega
        simp only [Extent.trimEnd]
        omega
      · exact hrest.cons hpositive (h.onIp e (by simp)) hwritten hlower fun hF =>
          truncateAltExtents_lower fun x hx => (hsettled x hx).2 hF
    · exact hrest

end Truncate

/-! ## Sequences of changes -/

/-- A change of the list: an insertion, a truncation of a file of size `fileSize`, and
the end of the list, when the file is taken off the index partition or the list has
been pushed. -/
inductive AltOp
  | insert (ext : Extent)
  | truncate (fileSize length : ℕ)
  | clear

namespace AltOp

variable {β : Type*}

def exec (bs : ℕ) : AltOp → DentryPriv β → DentryPriv β
  | .insert ext, p => unifiedUpdateAltExtentlist bs ext p
  | .truncate fileSize length, p => cutPriv length { p with fileSize := fileSize }
  | .clear, p => dropAltExtentlist p

/-- The change leaves the offset `i` alone. -/
def Spares (i : ℕ) : AltOp → Prop
  | .insert ext => ¬(ext.fileoffset ≤ i ∧ i < ext.fileoffsetEnd)
  | .truncate fileSize length => length < fileSize → i < length
  | .clear => False

end AltOp

/-- `ext` is the extent inserted last that covers `i`, and has not been truncated away
there since. -/
def Latest (ops : List AltOp) (i : ℕ) (ext : Extent) : Prop :=
  ∃ before after, ops = before ++ .insert ext :: after ∧
    (ext.fileoffset ≤ i ∧ i < ext.fileoffsetEnd) ∧ ∀ op ∈ after, op.Spares i

theorem latest_concat (ops : List AltOp) (op : AltOp) (i : ℕ) (ext : Extent) :
    Latest (ops ++ [op]) i ext ↔
      (op = .insert ext ∧ ext.fileoffset ≤ i ∧ i < ext.fileoffsetEnd) ∨
        op.Spares i ∧ Latest ops i ext := by
  constructor
  · rintro ⟨before, after, heq, hcovers, hspares⟩
    obtain rfl | ⟨after, last, rfl⟩ := after.eq_nil_or_concat
    · obtain ⟨-, hop⟩ := List.append_inj' heq rfl
      exact .inl ⟨List.singleton_inj.1 hop, hcovers⟩
    · rw [List.concat_eq_append, ← List.cons_append, ← List.append_assoc] at heq
      obtain ⟨hops, hop⟩ := List.append_inj' heq rfl
      obtain rfl := List.singleton_inj.1 hop
      refine .inr ⟨hspares op (by simp), before, after, hops, hcovers, fun x hx => ?_⟩
      exact hspares x (by simp [hx])
  · rintro (⟨rfl, hcovers⟩ | ⟨hop, before, after, rfl, hcovers, hspares⟩)
    · exact ⟨ops, [], rfl, hcovers, by simp⟩
    · refine ⟨before, after ++ [op], by simp, hcovers, ?_⟩
      simpa [or_imp, forall_and, hop] using hspares

/-- Extents of positive length on the index partition, each written behind all the
earlier ones. -/
def InWriteOrder (bs : ℕ) (ops : List AltOp) : Prop :=
  ∀ before ext after, ops = before ++ .insert ext :: after →
    0 < ext.bytecount ∧ ext.partition = .ip ∧
      ∀ e, .insert e ∈ before → tapeEnd bs e ≤ tapeStart bs ext

/-- Push the extents of a list into a file, in order. -/
def pushExtents (bs : ℕ) (es : List Extent) (d : Dentry) : Dentry :=
  es.foldl (fun d e => addExtent bs e d) d

section Runs

variable {β : Type*} {bs : ℕ} {ops : List AltOp}

/-- Pushing a list gives every offset what the last entry that covers it has. -/
theorem pushExtents_lookup (hbs : 0 < bs) (es : List Extent) {d : Dentry}
    (hd : (places bs).Ordered d.extents) (i : ℕ) :
    (places bs).lookup (pushExtents bs es d).extents i =
      (newest bs es i).or ((places bs).lookup d.extents i) := by
  induction es generalizing d with
  | nil => simp [pushExtents, newest]
  | cons e es ih =>
    have hadd := addWalk_overlays hbs e d.extents.reverse [] d.realsize
      (by simpa using hd) (by simp)
    rw [List.reverse_reverse, List.append_nil] at hadd
    have hlookup : (places bs).lookup (addExtent bs e d).extents i =
        ((places bs).lookup [e] i).or ((places bs).lookup d.extents i) := by
      refine (hadd.lookup i).trans ?_
      rw [Segments.lookup_cons]
      split_ifs <;> rfl
    rw [newest_cons, Option.or_assoc, ← hlookup]
    exact ih hadd.ordered

/-- The list shows what the changes leave: it has the latest extent where there is one,
and nothing elsewhere. -/
structure Tracks (bs : ℕ) (ops : List AltOp) (es : List Extent) : Prop where
  latest : ∀ i ext, Latest ops i ext → newest bs es i = some (ext.place bs i)
  nothing : ∀ i, (∀ ext, ¬Latest ops i ext) → newest bs es i = none

theorem Tracks.step {es es' : List Extent} {op : AltOp} (h : Tracks bs ops es)
    (hcovers : ∀ ext i, op = .insert ext → ext.fileoffset ≤ i ∧ i < ext.fileoffsetEnd →
      newest bs es' i = some (ext.place bs i))
    (hspares : ∀ i, op.Spares i → newest bs es' i = newest bs es i)
    (hgone : ∀ i, ¬op.Spares i → (∀ ext, op ≠ .insert ext) → newest bs es' i = none) :
    Tracks bs (ops ++ [op]) es' := by
  refine ⟨?_, ?_⟩
  · intro i ext hlatest
    obtain ⟨rfl, hi⟩ | ⟨hop, hbefore⟩ := (latest_concat ops op i ext).1 hlatest
    · exact hcovers ext i rfl hi
    · rw [hspares i hop]
      exact h.latest i ext hbefore
  · intro i hnone
    by_cases hop : op.Spares i
    · rw [hspares i hop]
      exact h.nothing i fun ext hlatest =>
        hnone ext ((latest_concat ops op i ext).2 (.inr ⟨hop, hlatest⟩))
    · apply hgone i hop
      rintro ext rfl
      exact hnone ext ((latest_concat ops _ i ext).2 (.inl ⟨rfl, not_not.1 hop⟩))

/-- Step lemma: `G` is the end of the extent written last. -/
theorem AltOp.exec_tracks (hbs : 0 < bs) {F : ℕ} (op : AltOp) {p : DentryPriv β}
    (h : Tracks bs ops p.altExtentlist) (hinv : AltInv bs F p.altExtentlist)
    (hop : ∀ ext, op = .insert ext →
      0 < ext.bytecount ∧ ext.partition = .ip ∧ F ≤ tapeStart bs ext) :
    Tracks bs (ops ++ [op]) (op.exec bs p).altExtentlist ∧
      ∃ G, AltInv bs G (op.exec bs p).altExtentlist ∧
        (G = F ∨ ∃ ext, op = .insert ext ∧ G = tapeEnd bs ext) := by
  cases op with
  | insert ext =>
    obtain ⟨hpositive, hip, hwritten⟩ := hop ext rfl
    have hlist : ((AltOp.insert ext).exec bs p).altExtentlist =
        altWalk bs ext false p.altExtentlist := by
      simp only [exec, unifiedUpdateAltExtentlist]
      split_ifs with hempty
      · simp [hempty, altWalk]
      · rfl
    have hinserted := altWalk_inserted hbs hpositive hip hwritten hinv
    rw [hlist]
    refine ⟨h.step ?_ ?_ ?_, _, hinserted.inv, .inr ⟨ext, rfl, rfl⟩⟩
    · intro e i heq hi
      cases heq
      rw [hinserted.newest, if_pos hi]
    · intro i hi
      rw [hinserted.newest, if_neg hi]
    · exact fun i _ hnot => absurd rfl (hnot ext)
  | truncate fileSize length =>
    by_cases hcut : length < fileSize
    · have hlist : ((AltOp.truncate fileSize length).exec bs p).altExtentlist =
          truncateAltExtents length p.altExtentlist := by
        simp [exec, cutPriv, hcut]
      rw [hlist]
      refine ⟨h.step (by simp) ?_ ?_, F, hinv.truncate length, .inl rfl⟩
      · intro i hi
        rw [newest_truncate, if_pos (hi hcut)]
      · intro i hi _
        rw [newest_truncate, if_neg fun hlt => hi fun _ => hlt]
    · have hlist : ((AltOp.truncate fileSize length).exec bs p).altExtentlist =
          p.altExtentlist := by
        simp [exec, cutPriv, hcut]
      rw [hlist]
      refine ⟨h.step (by simp) (fun _ _ => rfl) ?_, F, hinv, .inl rfl⟩
      exact fun i hi _ => absurd (fun hlt => absurd hlt hcut) hi
  | clear =>
    have hlist : (AltOp.clear.exec bs p).altExtentlist = [] := by
      simp only [exec, dropAltExtentlist]
      split_ifs with hempty
      · exact hempty
      · rfl
    rw [hlist]
    refine ⟨h.step (by simp) (fun _ hi => hi.elim) fun _ _ _ => rfl, F, ?_, .inl rfl⟩
    exact ⟨.nil, by simp, by simp, by simp⟩

/-- Run lemma: the list tracks the changes, and every extent has been written before
`F`. -/
theorem run_tracks (hbs : 0 < bs) (hops : InWriteOrder bs ops) {p : DentryPriv β}
    (hp : p.altExtentlist = []) :
    Tracks bs ops (runSteps (AltOp.exec bs) ops p).altExtentlist ∧
      ∃ F, AltInv bs F (runSteps (AltOp.exec bs) ops p).altExtentlist ∧
        (F = 0 ∨ ∃ e, .insert e ∈ ops ∧ F = tapeEnd bs e) := by
  induction ops using List.reverseRecOn with
  | nil =>
    rw [runSteps_nil, hp]
    refine ⟨⟨?_, fun _ _ => rfl⟩, 0, ⟨.nil, by simp, by simp, by simp⟩, .inl rfl⟩
    rintro i ext ⟨before, after, heq, -⟩
    simp at heq
  | append_singleton ops op ih =>
    have hbefore : InWriteOrder bs ops := by
      intro before ext after heq
      exact hops before ext (after ++ [op]) (by simp [heq])
    obtain ⟨htracks, F, hinv, hF⟩ := ih hbefore
    have hop : ∀ ext, op = .insert ext →
        0 < ext.bytecount ∧ ext.partition = .ip ∧ F ≤ tapeStart bs ext := by
      rintro ext rfl
      obtain ⟨hpositive, hip, hwritten⟩ := hops ops ext [] rfl
      refine ⟨hpositive, hip, ?_⟩
      obtain rfl | ⟨e, he, rfl⟩ := hF
      · exact Nat.zero_le _
      · exact hwritten e he
    rw [runSteps_append, runSteps_cons, runSteps_nil]
    obtain ⟨hstep, G, hG, hlast⟩ := op.exec_tracks hbs htracks hinv hop
    refine ⟨hstep, G, hG, ?_⟩
    obtain rfl | ⟨ext, rfl, rfl⟩ := hlast
    · obtain hzero | ⟨e, he, heq⟩ := hF
      · exact .inl hzero
      · exact .inr ⟨e, by simp [he], heq⟩
    · exact .inr ⟨ext, by simp, rfl⟩

/-- After every sequence of insertions and truncations: pushed in order into a file, the
list gives every offset the tape byte of the extent that was inserted last there and
has not been truncated away, and leaves the other offsets as they are. -/
theorem altExtentlist_newest_wins (hbs : 0 < bs) (hops : InWriteOrder bs ops)
    {p : DentryPriv β} (hp : p.altExtentlist = []) {d : Dentry}
    (hd : (places bs).Ordered d.extents) (i : ℕ) :
    (∀ ext, Latest ops i ext → (places bs).lookup (pushExtents bs
        (runSteps (AltOp.exec bs) ops p).altExtentlist d).extents i =
          some (ext.place bs i)) ∧
      ((∀ ext, ¬Latest ops i ext) → (places bs).lookup (pushExtents bs
        (runSteps (AltOp.exec bs) ops p).altExtentlist d).extents i =
          (places bs).lookup d.extents i) := by
  obtain ⟨htracks, -⟩ := run_tracks hbs hops hp
  constructor
  · intro ext hlatest
    rw [pushExtents_lookup hbs _ hd, htracks.latest i ext hlatest, Option.some_or]
  · intro hnone
    rw [pushExtents_lookup hbs _ hd, htracks.nothing i hnone, Option.none_or]

end Runs

/-- Eight bytes in blocks of four, two of them written again, and the last two cut
off. -/
def nestedOps : List AltOp :=
  [.insert ⟨.ip, 0, 0, 8, 0⟩, .insert ⟨.ip, 2, 0, 2, 3⟩, .truncate 8 6]

theorem nestedOps_inWriteOrder : InWriteOrder 4 nestedOps := by
  intro before ext after heq
  match before, heq with
  | [], heq =>
    obtain ⟨hop, -⟩ := List.cons.inj heq
    cases hop
    exact ⟨by decide, rfl, by simp⟩
  | [_], heq =>
    obtain ⟨rfl, htail⟩ := List.cons.inj heq
    obtain ⟨hop, -⟩ := List.cons.inj htail
    cases hop
    refine ⟨by decide, rfl, fun e he => ?_⟩
    cases List.mem_singleton.1 he
    decide
  | [_, _], heq => simp [nestedOps] at heq
  | _ :: _ :: _ :: before, heq => simp [nestedOps] at heq

theorem altExtentlist_newest_wins_nested :
    Latest nestedOps 4 ⟨.ip, 2, 0, 2, 3⟩ ∧
      (places 4).lookup (pushExtents 4 (runSteps (AltOp.exec 4) nestedOps
        (⟨[], 8, true, none, [], 0⟩ : DentryPriv ℕ)).altExtentlist ⟨0, 0, []⟩).extents 4 =
          some ⟨.ip, 2, 1⟩ := by
  have hlatest : Latest nestedOps 4 ⟨.ip, 2, 0, 2, 3⟩ := by
    refine ⟨[.insert ⟨.ip, 0, 0, 8, 0⟩], [.truncate 8 6], rfl, by decide, ?_⟩
    simp [AltOp.Spares]
  have hempty : (places 4).Ordered (⟨0, 0, []⟩ : Dentry).extents := .nil
  exact ⟨hlatest, (altExtentlist_newest_wins (by decide) nestedOps_inWriteOrder rfl hempty
    4).1 _ hlatest⟩

end AuroraLtfs.Sched
