import AuroraLtfs.Raw.Refinement
import AuroraLtfs.Sched.File
import AuroraLtfs.Sched.WriteSpec

/-!
# Reading through the queue

`unified_read` takes what it can from the queued requests and asks libltfs for
the holes between them and for what lies behind the last one.  Together these
are the bytes of the file that the requests show over the file below.
-/

namespace AuroraLtfs.Sched

open AuroraLtfs.Tape
open AuroraLtfs.Raw

variable {σ β : Type*}

/-- A part of the buffer: a hole to be filled by libltfs, or bytes of a
request. -/
inductive Piece (β : Type*)
  | hole (offset count : ℕ)
  | cached (bytes : List β)

/-- The parts of the buffer up to the last request, and the file offset and the
size of what is left. -/
structure Plan (β : Type*) where
  pieces : List (Piece β)
  offset : ℕ
  size : ℕ

def Plan.prepend (pieces : List (Piece β)) (plan : Plan β) : Plan β :=
  { plan with pieces := pieces ++ plan.pieces }

/-- The walk of `unified_read` over the requests, with something left to
read. -/
def planRead : List (WriteRequest β) → ℕ → ℕ → Plan β
  | [], offset, size => ⟨[], offset, size⟩
  | req :: rest, offset, size =>
    let gap := min (req.offset - offset) size
    let hole := if offset < req.offset then [.hole offset gap] else []
    if size - gap = 0 then ⟨hole, offset + gap, 0⟩
    else
      let offset := offset + gap
      let size := size - gap
      let used := min (req.stop - offset) size
      let bytes := if offset < req.stop then
          [.cached ((req.data.drop (offset - req.offset)).take used)]
        else []
      if size - used = 0 then ⟨hole ++ bytes, offset + used, 0⟩
      else (planRead rest (offset + used) (size - used)).prepend (hole ++ bytes)

variable [Zero β]

/-- Fill the holes.  Behind the first one that libltfs cannot fill the file
below has ended. -/
def fillHoles (bs : ℕ) : List (Piece β) → Bool → FileState σ β →
    TapeCall (FileState σ β) (List β)
  | [], _, s => (.ok [], s)
  | .cached bytes :: rest, pastEof, s =>
    (fillHoles bs rest pastEof s).andThen fun out s => (.ok (bytes ++ out), s)
  | .hole offset count :: rest, pastEof, s =>
    Outcome.andThen (if pastEof then (.ok [], s)
      else ltfsFsrawRead bs offset count s) fun data s =>
        (fillHoles bs rest (pastEof || data.length < count) s).andThen
          fun out s => (.ok (data ++
            List.replicate (count - data.length) 0 ++ out), s)

/-- `unified_read`. -/
def unifiedRead (m : Mount) (offset size : ℕ) (s : State σ β) :
    TapeCall (State σ β) (List β) :=
  if size = 0 then (.ok [], s)
  else
    -- without requests all of it comes from libltfs
    let plan := planRead s.file.requests offset size
    ((fillHoles m.blockSize plan.pieces false s.fileState).andThen
      fun out x =>
        if plan.size = 0 then (.ok out, x)
        else (ltfsFsrawRead m.blockSize plan.offset plan.size x).andThen
          fun tail x => (.ok (out ++ tail), x)).within s.withFileState

section Relation

variable {bs : ℕ} {R : FileState σ β → FileState σ β → Prop}
  (hrefl : ∀ x, R x x) (htrans : ∀ {x y z}, R x y → R y z → R x z)
  (hread : ∀ offset count x, R x (ltfsFsrawRead bs offset count x).2)

include hrefl htrans hread

/-- What reads of libltfs respect, filling the holes respects too. -/
theorem fillHoles_rel (pieces : List (Piece β)) (pastEof : Bool)
    (x : FileState σ β) : R x (fillHoles bs pieces pastEof x).2 := by
  induction pieces generalizing pastEof x with
  | nil => exact hrefl x
  | cons piece rest ih =>
    cases piece with
    | cached bytes =>
      rw [fillHoles]
      apply Outcome.andThen_rel (R := R) htrans (ih pastEof x)
      intro out y _
      exact hrefl y
    | hole offset count =>
      rw [fillHoles]
      apply Outcome.andThen_rel (R := R) htrans
      · split
        · exact hrefl x
        · exact hread offset count x
      · intro data y _
        apply Outcome.andThen_rel (R := R) htrans (ih _ y)
        intro out z _
        exact hrefl z

omit hread in
/-- And so does the whole read. -/
theorem unifiedRead_rel (m : Mount)
    (hread : ∀ offset count x, R x (ltfsFsrawRead m.blockSize offset count x).2)
    (offset size : ℕ) (s : State σ β) :
    ∃ y, (unifiedRead m offset size s).2 = s.withFileState y ∧
      R s.fileState y := by
  rw [unifiedRead]
  split
  · exact ⟨s.fileState, rfl, hrefl _⟩
  · refine ⟨_, rfl, ?_⟩
    apply Outcome.andThen_rel (R := R) htrans
    · exact fillHoles_rel hrefl htrans hread _ _ _
    · intro out x _
      split
      · exact hrefl x
      · apply Outcome.andThen_rel (R := R) htrans
        · exact hread _ _ x
        · intro tail y _
          exact hrefl y

end Relation

section Fill

/-- What a part of the buffer is filled with. -/
def Piece.fill (raw : ByteFile β) : Piece β → List β
  | .hole offset count => ByteFile.slice raw.byte offset count
  | .cached bytes => bytes

/-- The holes lie one behind the other from `start` on and end by `stop`. -/
def HolesWithin : ℕ → ℕ → List (Piece β) → Prop
  | _, _, [] => True
  | start, stop, .cached _ :: rest => HolesWithin start stop rest
  | start, stop, .hole offset count :: rest =>
    start ≤ offset ∧ offset + count ≤ stop ∧
      HolesWithin (offset + count) stop rest

omit [Zero β] in
theorem HolesWithin.mono {start start' stop : ℕ} {pieces : List (Piece β)}
    (h : HolesWithin start stop pieces) (hle : start' ≤ start) :
    HolesWithin start' stop pieces := by
  induction pieces with
  | nil => trivial
  | cons piece rest ih =>
    cases piece with
    | cached bytes => exact ih h
    | hole offset count => exact ⟨hle.trans h.1, h.2⟩

omit [Zero β] in
theorem HolesWithin.append {start mid stop : ℕ} {xs ys : List (Piece β)}
    (hxs : HolesWithin start mid xs) (hys : HolesWithin mid stop ys)
    (hstart : start ≤ mid) (hstop : mid ≤ stop) : HolesWithin start stop (xs ++ ys) := by
  induction xs generalizing start with
  | nil => exact hys.mono hstart
  | cons x xs ih =>
    cases x with
    | cached bytes => exact ih hxs hstart
    | hole offset count =>
      exact ⟨hxs.1, hxs.2.1.trans hstop, ih hxs.2.2 hxs.2.1⟩

/-- Filling the holes gives the bytes of the file below, with zeros where it
has ended. -/
theorem fillHoles_spec {bs : ℕ} (hbs : 0 < bs) (pieces : List (Piece β))
    {start stop : ℕ} (hholes : HolesWithin start stop pieces)
    (hrange : stop < 2 ^ 64) (pastEof : Bool) {s : FileState σ β}
    (hs : ValidFile bs s) (hpast : pastEof = true → (fileOf bs s).size ≤ start) :
    ∃ next, fillHoles bs pieces pastEof s =
        (.ok (pieces.flatMap (Piece.fill (fileOf bs s))), next) ∧
      ValidFile bs next ∧ cellsOf bs next = cellsOf bs s ∧ next.2 = s.2 := by
  induction pieces generalizing start pastEof s with
  | nil => exact ⟨s, rfl, hs, rfl, rfl⟩
  | cons piece rest ih =>
    cases piece with
    | cached bytes =>
      obtain ⟨next, hfill, hnext⟩ := ih hholes pastEof hs hpast
      refine ⟨next, ?_, hnext⟩
      rw [fillHoles, hfill]
      rfl
    | hole offset count =>
      obtain ⟨hstart, hstop, hrest⟩ := hholes
      cases pastEof with
      | true =>
        have hend := hpast rfl
        obtain ⟨next, hfill, hnext⟩ := ih hrest true hs
          fun _ => by omega
        refine ⟨next, ?_, hnext⟩
        have hzeros : List.replicate count 0 =
            ByteFile.slice (fileOf bs s).byte offset count := by
          apply ByteFile.eq_slice (List.length_replicate ..)
          intro k hk
          rw [List.getElem?_replicate_of_lt hk, (fileOf bs s).byte_past _ (by omega)]
        rw [fillHoles, if_pos rfl, Outcome.andThen_ok, Bool.true_or,
          hfill, Outcome.andThen_ok]
        simp only [List.length_nil, Nat.sub_zero, List.nil_append,
          List.flatMap_cons, Piece.fill, hzeros]
      | false =>
        obtain ⟨mid, hread, hmid, hcells, hdentry⟩ :=
          ltfsFsrawRead_spec hbs hs (by omega : offset + count < 2 ^ 64)
        have hsame : fileOf bs mid = fileOf bs s := by
          rw [fileOf_eq, hcells, fileOf_eq]
        obtain ⟨next, hfill, hnext, hfile, hdentry'⟩ := ih hrest
          (false || decide
            (((fileOf bs s).read offset count).length < count)) hmid
          (fun hshort => by
            rw [hsame]
            simp only [Bool.false_or, decide_eq_true_eq, ByteFile.length_read] at hshort
            omega)
        refine ⟨next, ?_, hnext, hfile.trans hcells, hdentry'.trans hdentry⟩
        rw [fillHoles, if_neg (by simp), hread, Outcome.andThen_ok, hfill,
          Outcome.andThen_ok, ByteFile.read_append_zeros, hsame]
        rfl

end Fill

section Plan

variable {raw f : SparseFile β} {req : WriteRequest β}
  {rest : List (WriteRequest β)} {offset size fileSize : ℕ}

/-- The requests over the file below show `f` from `offset` on. -/
def ShowsFrom (raw f : SparseFile β) (requests : List (WriteRequest β))
    (offset : ℕ) : Prop :=
  ∀ i, offset ≤ i → f.byte i =
    ((requestSegments β).lookup requests i).getD (raw.byte i)

/-- Before the first request the file below shows through. -/
theorem ShowsFrom.hole (h : ShowsFrom raw f (req :: rest) offset)
    (horder : InOrder (req :: rest)) {n : ℕ} (hn : offset + n ≤ req.offset) :
    ByteFile.slice raw.fill.byte offset n = ByteFile.slice f.fill.byte offset n := by
  apply ByteFile.slice_congr
  intro i hlo hhi
  rw [ByteFile.fill_byte f, h i hlo, Segments.lookup_eq_none]
  · rfl
  · intro r hr
    left
    cases List.mem_cons.1 hr with
    | inl hr => exact hr ▸ (by omega : i < req.offset)
    | inr hr =>
      have hle : req.stop ≤ r.offset := ((Segments.ordered_cons _).1 horder).1 r hr
      have hstop : req.stop = req.offset + req.count := rfl
      exact (by omega : i < r.offset)

/-- Inside of a request its bytes are those of the file. -/
theorem ShowsFrom.cached (h : ShowsFrom raw f (req :: rest) offset)
    (hlo : req.offset ≤ offset) {n : ℕ} (hn : offset + n ≤ req.stop) :
    (req.data.drop (offset - req.offset)).take n =
      ByteFile.slice f.fill.byte offset n := by
  have hstop : req.stop = req.offset + req.data.length := rfl
  apply ByteFile.eq_slice
  · rw [List.length_take, List.length_drop]
    omega
  · intro k hk
    have hindex : offset - req.offset + k = offset + k - req.offset := by omega
    rw [ByteFile.fill_byte, h _ (by omega), lookup_request,
      if_pos ⟨by omega, by omega⟩, List.getElem?_take_of_lt hk,
      List.getElem?_drop, Option.getD_some, hindex]
    simp only [requestSegments]
    rw [List.getElem?_eq_getElem (by omega), Option.getD_some]

/-- What the walk over the requests finds. -/
structure PlanSpec (raw f : SparseFile β) (requests : List (WriteRequest β))
    (offset size fileSize : ℕ) (plan : Plan β) : Prop where
  le : offset ≤ plan.offset
  total : plan.offset + plan.size = offset + size
  holes : HolesWithin offset plan.offset plan.pieces
  bytes : plan.pieces.flatMap (Piece.fill raw.fill) =
    ByteFile.slice f.fill.byte offset (plan.offset - offset)
  within : plan.offset ≤ max offset fileSize
  behind : plan.size ≠ 0 → ∀ r ∈ requests, r.stop ≤ plan.offset

/-- One request is looked at: `front` is what it adds to the buffer, up to
`mid`. -/
theorem planRead_front (h : ShowsFrom raw f (req :: rest) offset)
    (horder : InOrder (req :: rest)) (hstop : req.stop ≤ fileSize) :
    ∃ front mid, offset ≤ mid ∧ mid ≤ offset + size ∧
      mid ≤ max offset fileSize ∧ HolesWithin offset mid front ∧
      front.flatMap (Piece.fill raw.fill) =
        ByteFile.slice f.fill.byte offset (mid - offset) ∧
      (mid < offset + size → req.stop ≤ mid) ∧
      planRead (req :: rest) offset size =
        if mid = offset + size then ⟨front, mid, 0⟩
        else (planRead rest mid (offset + size - mid)).prepend front := by
  have hreq : req.stop = req.offset + req.count := rfl
  obtain ⟨gap, hgap⟩ : ∃ gap, gap = min (req.offset - offset) size := ⟨_, rfl⟩
  obtain ⟨hole, hhole⟩ : ∃ hole : List (Piece β), hole =
    if offset < req.offset then [.hole offset gap] else [] := ⟨_, rfl⟩
  have hholeBytes : hole.flatMap (Piece.fill raw.fill) =
      ByteFile.slice f.fill.byte offset gap := by
    by_cases hbefore : offset < req.offset
    · rw [hhole, if_pos hbefore]
      simpa [Piece.fill] using h.hole horder (by omega : offset + gap ≤ _)
    · rw [hhole, if_neg hbefore]
      obtain rfl : gap = 0 := by omega
      rfl
  have hholeWithin : HolesWithin offset (offset + gap) hole := by
    rw [hhole]
    split_ifs
    · exact ⟨le_rfl, le_rfl, trivial⟩
    · trivial
  by_cases hfull : size - gap = 0
  · refine ⟨hole, offset + gap, by omega, by omega, by omega, hholeWithin, ?_, by omega, ?_⟩
    · rw [hholeBytes, Nat.add_sub_cancel_left]
    · rw [if_pos (by omega)]
      simp only [planRead, ← hgap, ← hhole, hfull, if_true]
  obtain ⟨used, hused⟩ : ∃ used, used =
    min (req.stop - (offset + gap)) (size - gap) := ⟨_, rfl⟩
  obtain ⟨inside, hinside⟩ : ∃ inside : List (Piece β), inside =
    if offset + gap < req.stop then [.cached
      ((req.data.drop (offset + gap - req.offset)).take used)]
    else [] := ⟨_, rfl⟩
  have hinsideBytes : inside.flatMap (Piece.fill raw.fill) =
      ByteFile.slice f.fill.byte (offset + gap) used := by
    by_cases hin : offset + gap < req.stop
    · have hfrom : ShowsFrom raw f (req :: rest) (offset + gap) :=
        fun i hi => h i (by omega)
      rw [hinside, if_pos hin]
      simpa [Piece.fill] using hfrom.cached (by omega)
        (by omega : offset + gap + used ≤ req.stop)
    · rw [hinside, if_neg hin]
      obtain rfl : used = 0 := by omega
      rfl
  have hinsideWithin : HolesWithin (offset + gap) (offset + gap + used) inside := by
    rw [hinside]
    split_ifs <;> trivial
  have hbytes : (hole ++ inside).flatMap (Piece.fill raw.fill) =
      ByteFile.slice f.fill.byte offset (offset + gap + used - offset) := by
    have hlength : offset + gap + used - offset = gap + used := by omega
    rw [List.flatMap_append, hholeBytes, hinsideBytes, hlength, ByteFile.slice_add]
  refine ⟨hole ++ inside, offset + gap + used, by omega, by omega, by omega,
    hholeWithin.append hinsideWithin (by omega) (by omega), hbytes, by omega,
    ?_⟩
  simp only [planRead, ← hgap, ← hhole, hfull, if_false, ← hused, ← hinside]
  by_cases hdone : size - gap - used = 0
  · rw [if_pos hdone, if_pos (by omega)]
  · have hleft : offset + size - (offset + gap + used) = size - gap - used := by
      omega
    rw [if_neg hdone, if_neg (by omega), hleft]

theorem planRead_spec (requests : List (WriteRequest β))
    (h : ShowsFrom raw f requests offset) (horder : InOrder requests)
    (hwithin : ∀ r ∈ requests, r.stop ≤ fileSize) :
    PlanSpec raw f requests offset size fileSize
      (planRead requests offset size) := by
  induction requests generalizing offset size with
  | nil =>
    constructor
    · exact le_rfl
    · rfl
    · trivial
    · simp [planRead, ByteFile.slice]
    · exact le_max_left _ _
    · simp
  | cons req rest ih =>
    obtain ⟨front, mid, hle, hmid, hend, hholes, hbytes, hpassed, hplan⟩ :=
      planRead_front h horder (hwithin req (by simp))
    rw [hplan]
    split_ifs with hdone
    · refine ⟨hle, by simpa using hdone, hholes, hbytes, hend, ?_⟩
      simp
    · have hstop := hpassed (by omega)
      have hfrom : ShowsFrom raw f rest mid := by
        intro i hi
        rw [h i (by omega), lookup_request, if_neg (by omega)]
      obtain ⟨left, hleft⟩ : ∃ left, left = offset + size - mid := ⟨_, rfl⟩
      rw [← hleft]
      have hspec := @ih mid left hfrom ((Segments.ordered_cons _).1 horder).2
        fun r hr => hwithin r (by simp [hr])
      have htotal := hspec.total
      have hmore := hspec.le
      have hlast := hspec.within
      constructor
      · exact hle.trans hmore
      · simp only [Plan.prepend]
        omega
      · exact hholes.append hspec.holes hle hmore
      · simp only [Plan.prepend, List.flatMap_append]
        rw [hbytes, hspec.bytes]
        have hsplit : (planRead rest mid left).offset - offset =
            mid - offset + ((planRead rest mid left).offset - mid) := by omega
        rw [hsplit, ByteFile.slice_add, Nat.add_sub_cancel' hle]
      · simp only [Plan.prepend]
        omega
      · intro hleft r hr
        cases List.mem_cons.1 hr with
        | inl hr => exact hr ▸ hstop.trans hmore
        | inr hr => exact hspec.behind hleft r hr

/-- Without holes nothing is read from the tape. -/
theorem fillHoles_cached {bs : ℕ} (pieces : List (Piece β))
    (hcached : ∀ piece ∈ pieces, ∃ bytes, piece = .cached bytes) (pastEof : Bool)
    (g : ByteFile β) (s : FileState σ β) :
    fillHoles bs pieces pastEof s = (.ok (pieces.flatMap (Piece.fill g)), s) := by
  induction pieces with
  | nil => rfl
  | cons piece rest ih =>
    obtain ⟨bytes, rfl⟩ := hcached piece (by simp)
    rw [fillHoles, ih fun p hp => hcached p (by simp [hp])]
    rfl

/-- Behind the last request the file ends where the file below ends. -/
theorem Shows.tail {requests : List (WriteRequest β)} (h : Shows raw f requests fileSize)
    {start : ℕ} (hbehind : ∀ r ∈ requests, r.stop ≤ start) (count : ℕ) :
    raw.fill.read start count = ByteFile.slice f.fill.byte start
      (min (start + count) f.size - start) := by
  have habove := h.above
  have hsame : ∀ i, start ≤ i → f.byte i = raw.byte i := by
    intro i hi
    rw [h.bytes, Segments.lookup_eq_none]
    · rfl
    · exact fun r hr => .inr ((hbehind r hr).trans hi)
  have hend : min (start + count) f.size - start =
      min (start + count) raw.size - start := by
    rw [h.size]
    by_cases hmore : raw.size < fileSize
    · obtain ⟨b, hb⟩ := Option.isSome_iff_exists.1 (h.top hmore)
      obtain ⟨r, hr, -, hhi, -⟩ := Segments.exists_of_lookup _ hb
      have hle := hbehind r hr
      have hhi' : fileSize - 1 < r.stop := hhi
      omega
    · omega
  rw [hend]
  exact ByteFile.slice_congr fun i hi _ =>
    congrArg (Option.getD · 0) (hsame i hi).symm

/-- The whole read: what the requests show over the file below. -/
theorem unifiedRead_spec {m : Mount} {s : State σ β}
    (hs : ValidFile m.blockSize s.fileState) (hshows : Shows
      (cellsOf m.blockSize s.fileState) f s.file.requests fileSize)
    (horder : InOrder s.file.requests) (hrange : offset + size < 2 ^ 64) :
    ∃ next, unifiedRead m offset size s =
        (.ok (f.fill.read offset size), s.withFileState next) ∧
      ValidFile m.blockSize next ∧
      cellsOf m.blockSize next = cellsOf m.blockSize s.fileState ∧
      next.2 = s.file.dentry := by
  by_cases hsize : size = 0
  · refine ⟨s.fileState, ?_, hs, rfl, rfl⟩
    have hempty : f.fill.read offset size = [] := by
      apply List.eq_nil_of_length_eq_zero
      rw [ByteFile.length_read]
      omega
    rw [unifiedRead, if_pos hsize, hempty]
    rfl
  have hplan : PlanSpec _ f s.file.requests offset size fileSize _ :=
    planRead_spec _ (fun i _ => hshows.bytes i) horder hshows.within
  rw [unifiedRead, if_neg hsize]
  dsimp only
  obtain ⟨plan, hp⟩ : ∃ plan, plan = planRead s.file.requests offset size := ⟨_, rfl⟩
  rw [← hp] at hplan ⊢
  have htotal := hplan.total
  have hle := hplan.le
  have hwithin := hplan.within
  have hfsize := hshows.size
  obtain ⟨mid, hfill, hmid, hsame, hdentry⟩ := fillHoles_spec m.blockSize_pos
    plan.pieces hplan.holes (by omega) false hs (by simp)
  rw [hfill, Outcome.andThen_ok, fileOf_eq, hplan.bytes]
  by_cases hdone : plan.size = 0
  · refine ⟨mid, ?_, hmid, hsame, hdentry⟩
    have hall : plan.offset - offset = min (offset + size) f.size - offset := by
      omega
    rw [if_pos hdone, hall]
    rfl
  · obtain ⟨next, hread, hnext, hsame', hdentry'⟩ :=
      ltfsFsrawRead_spec m.blockSize_pos hmid
        (by omega : plan.offset + plan.size < 2 ^ 64)
    refine ⟨next, ?_, hnext, hsame'.trans hsame, hdentry'.trans hdentry⟩
    have hsplit : min (offset + size) f.size - offset = plan.offset - offset +
        (min (plan.offset + plan.size) f.size - plan.offset) := by omega
    rw [if_neg hdone, hread, Outcome.andThen_ok, fileOf_eq, hsame,
      hshows.tail (hplan.behind hdone), ByteFile.read, ByteFile.fill_size, hsplit,
      ByteFile.slice_add, Nat.add_sub_cancel' hle]
    rfl

end Plan

end AuroraLtfs.Sched
