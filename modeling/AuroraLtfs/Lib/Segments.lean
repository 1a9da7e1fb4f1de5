import Mathlib

/-!
# Lists of disjoint segments

Extents, queued requests and other pieces of a file are segments: each covers
the offsets from `lo` up to `hi` and knows the byte at each of them.  A list of
segments in order is looked up by the first one that covers an offset.
-/

namespace AuroraLtfs

/-- How the items of a list cover offsets. -/
structure Segments (ι β : Type*) where
  lo : ι → ℕ
  hi : ι → ℕ
  get : ι → ℕ → β

namespace Segments

variable {ι β : Type*} (S : Segments ι β)

def lookup : List ι → ℕ → Option β
  | [], _ => none
  | s :: ss, i => if S.lo s ≤ i ∧ i < S.hi s then some (S.get s i)
      else lookup ss i

/-- Each segment ends before the next one starts. -/
def Ordered (ss : List ι) : Prop :=
  ss.Pairwise fun a b => S.hi a ≤ S.lo b

@[simp]
theorem lookup_nil (i : ℕ) : S.lookup [] i = none := rfl

theorem lookup_cons (s : ι) (ss : List ι) (i : ℕ) :
    S.lookup (s :: ss) i =
      if S.lo s ≤ i ∧ i < S.hi s then some (S.get s i) else S.lookup ss i :=
  rfl

theorem lookup_append (xs ys : List ι) (i : ℕ) :
    S.lookup (xs ++ ys) i = (S.lookup xs i).or (S.lookup ys i) := by
  induction xs with
  | nil => simp
  | cons x xs ih =>
    rw [List.cons_append, lookup_cons, lookup_cons]
    split_ifs
    · rfl
    · exact ih

theorem lookup_eq_none {ss : List ι} {i : ℕ}
    (h : ∀ s ∈ ss, i < S.lo s ∨ S.hi s ≤ i) : S.lookup ss i = none := by
  induction ss with
  | nil => rfl
  | cons s ss ih =>
    have hs := h s (by simp)
    rw [lookup_cons, if_neg (by omega)]
    exact ih fun t ht => h t (by simp [ht])

/-- A lookup that succeeds has found a covering segment. -/
theorem exists_of_lookup {ss : List ι} {i : ℕ} {b : β}
    (h : S.lookup ss i = some b) : ∃ s ∈ ss, S.lo s ≤ i ∧ i < S.hi s ∧ S.get s i = b := by
  induction ss with
  | nil => simp at h
  | cons s ss ih =>
    rw [lookup_cons] at h
    split_ifs at h with hcovers
    · exact ⟨s, by simp, hcovers.1, hcovers.2, by simpa using h⟩
    · obtain ⟨t, ht, hlo, hhi, hget⟩ := ih h
      exact ⟨t, by simp [ht], hlo, hhi, hget⟩

/-- A lookup sees only the bytes that the segments cover. -/
theorem lookup_congr {T : Segments ι β} {ss : List ι} {i : ℕ}
    (hsame : ∀ s ∈ ss, T.lo s = S.lo s ∧ T.hi s = S.hi s ∧
      (S.lo s ≤ i → i < S.hi s → T.get s i = S.get s i)) :
    T.lookup ss i = S.lookup ss i := by
  induction ss with
  | nil => rfl
  | cons s ss ih =>
    obtain ⟨hlo, hhi, hget⟩ := hsame s (by simp)
    rw [lookup_cons, lookup_cons, hlo, hhi]
    split_ifs with hcovers
    · rw [hget hcovers.1 hcovers.2]
    · exact ih fun t ht => hsame t (by simp [ht])

theorem ordered_append {xs ys : List ι} :
    S.Ordered (xs ++ ys) ↔ S.Ordered xs ∧ S.Ordered ys ∧
      ∀ x ∈ xs, ∀ y ∈ ys, S.hi x ≤ S.lo y :=
  List.pairwise_append

theorem ordered_cons {x : ι} {ys : List ι} :
    S.Ordered (x :: ys) ↔ (∀ y ∈ ys, S.hi x ≤ S.lo y) ∧ S.Ordered ys :=
  List.pairwise_cons

/-- In an ordered list a segment decides the lookup on what it covers. -/
theorem lookup_of_mem {ss : List ι} (hordered : S.Ordered ss) {s : ι}
    (hs : s ∈ ss) {i : ℕ} (hlo : S.lo s ≤ i) (hhi : i < S.hi s) :
    S.lookup ss i = some (S.get s i) := by
  induction ss with
  | nil => simp at hs
  | cons t ss ih =>
    rw [ordered_cons] at hordered
    rw [lookup_cons]
    cases List.mem_cons.1 hs with
    | inl heq =>
      subst heq
      rw [if_pos ⟨hlo, hhi⟩]
    | inr hmem =>
      have := hordered.1 s hmem
      rw [if_neg (by omega)]
      exact ih hordered.2 hmem

/-- Segments that read through `f` are found where the others are. -/
theorem lookup_map {γ : Type*} {T : Segments ι γ} (f : β → γ) (hlo : T.lo = S.lo)
    (hhi : T.hi = S.hi) (hget : ∀ s i, T.get s i = f (S.get s i)) (ss : List ι)
    (i : ℕ) : T.lookup ss i = (S.lookup ss i).map f := by
  induction ss with
  | nil => rfl
  | cons s ss ih =>
    rw [lookup_cons, lookup_cons, hlo, hhi, hget]
    split_ifs
    · rfl
    · exact ih

/-! ## Laying a segment over a list -/

/-- The ordered list `after` has `s` where it lies, and what `before` has
everywhere else. -/
structure Overlays (s : ι) (before after : List ι) : Prop where
  ordered : S.Ordered after
  lookup : ∀ i, S.lookup after i =
    if S.lo s ≤ i ∧ i < S.hi s then some (S.get s i) else S.lookup before i

variable {S} {s t : ι} {before before' after front : List ι}

/-- What counts is what `before` has outside `s`. -/
theorem Overlays.of_lookup (h : S.Overlays s before' after)
    (hsame : ∀ i, ¬(S.lo s ≤ i ∧ i < S.hi s) →
      S.lookup before' i = S.lookup before i) : S.Overlays s before after := by
  refine ⟨h.ordered, ?_⟩
  intro i
  rw [h.lookup i]
  split_ifs with hi
  · rfl
  · exact hsame i hi

/-- A segment in front of all the others. -/
theorem overlays_head (hordered : S.Ordered after)
    (hafter : ∀ t ∈ after, S.hi s ≤ S.lo t) : S.Overlays s after (s :: after) :=
  ⟨S.ordered_cons.2 ⟨hafter, hordered⟩, fun _ => rfl⟩

/-- A segment in front of `s` makes no difference. -/
theorem Overlays.cons (h : S.Overlays s before after) (hend : S.hi t ≤ S.lo s)
    (hbelow : ∀ u ∈ after, S.hi t ≤ S.lo u) : S.Overlays s (t :: before) (t :: after) := by
  refine ⟨S.ordered_cons.2 ⟨hbelow, h.ordered⟩, ?_⟩
  intro i
  rw [lookup_cons, lookup_cons, h.lookup i]
  by_cases hcovers : S.lo t ≤ i ∧ i < S.hi t
  · rw [if_pos hcovers, if_pos hcovers, if_neg (by omega)]
  · rw [if_neg hcovers, if_neg hcovers]

/-- Nor do any that end before all the others start. -/
theorem Overlays.append {start : ℕ} (h : S.Overlays s before after)
    (hfront : S.Ordered front) (hbelow : ∀ t ∈ front, S.hi t ≤ start)
    (hstart : start ≤ S.lo s) (habove : ∀ t ∈ after, start ≤ S.lo t) :
    S.Overlays s (front ++ before) (front ++ after) := by
  induction front with
  | nil => exact h
  | cons t front ih =>
    rw [ordered_cons] at hfront
    have hrest := ih hfront.2 fun u hu => hbelow u (by simp [hu])
    have hend := hbelow t (by simp)
    apply hrest.cons (hend.trans hstart)
    intro u hu
    cases List.mem_append.1 hu with
    | inl hu => exact hfront.1 u hu
    | inr hu => exact hend.trans (habove u hu)

end Segments

end AuroraLtfs
