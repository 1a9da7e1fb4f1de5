import AuroraLtfs.Sched.Overlay
import AuroraLtfs.Sched.Write

/-!
# What queueing a write does to the file

The requests of a file lie over what libltfs has of it.  The walk of
`unified_write` keeps them in order and makes the file what the abstract write
makes of it, unless it starts exactly between two adjacent requests that wait
for the index partition: then the bytes of the second are merged into the first
before the new ones are queued.
-/

namespace AuroraLtfs.Sched

open RequestState

variable {β : Type*}

/-- Every request fits into a cache block, and what waits for the index
partition is in the file below. -/
def Sound (cs : ℕ) (raw : SparseFile β) (requests : List (WriteRequest β)) : Prop :=
  ∀ r ∈ requests, Fits cs r ∧ Backed raw r

/-- The requests over the file below show file `f`.  If it is longer than the
file below, then because of a request. -/
structure Shows (raw f : SparseFile β) (requests : List (WriteRequest β))
    (fileSize : ℕ) : Prop where
  size : f.size = fileSize
  within : ∀ r ∈ requests, r.stop ≤ fileSize
  bytes : ∀ i, f.byte i =
    ((requestSegments β).lookup requests i).getD (raw.byte i)
  above : raw.size ≤ fileSize
  top : raw.size < fileSize →
    ((requestSegments β).lookup requests (fileSize - 1)).isSome

/-- Requests in order. -/
abbrev InOrder (requests : List (WriteRequest β)) : Prop :=
  (requestSegments β).Ordered requests

/-- The write starts between two adjacent requests for the index partition, of
which the first has room. -/
def Clobbers (cs offset : ℕ) (requests : List (WriteRequest β)) : Prop :=
  ∃ a r s b, requests = a ++ r :: s :: b ∧ r.IsIp ∧ s.IsIp ∧
    r.stop = offset ∧ s.offset = offset ∧ r.count < cs

/-- The invariant of the walk.  `f` is the file as far as the bytes are
queued. -/
structure WalkInv (cs : ℕ) (raw f : SparseFile β) (w : Walk β)
    (todo : List (WriteRequest β)) : Prop where
  shows : Shows raw f (w.front ++ todo) w.fileSize
  sound : Sound cs raw (w.front ++ todo)
  front : InOrder w.front
  rest : InOrder todo
  /-- only the previous request may lie over the ones to come -/
  behind : ∀ x ∈ w.before ++ w.skipped, ∀ y ∈ todo, x.stop ≤ y.offset
  below : ∀ p, w.prev = some p → ∀ y ∈ todo, p.offset < y.offset
  apart : ∀ p, w.prev = some p → p.IsIp → ∀ y ∈ todo, p.stop ≤ y.offset
  reaches : ∀ p, w.prev = some p → w.offset ≤ p.stop
  close : ∀ p, w.prev = some p → w.skipped = []
  queued : w.bytes = [] → w.prev ≠ none
  pending : w.bytes ≠ [] → ∀ x ∈ w.front, x.stop ≤ w.offset
  full : w.bytes ≠ [] → ∀ p, w.prev = some p → ¬p.IsIp → cs ≤ p.count
  untouched : w.bytes ≠ [] → ∀ p, w.prev = some p → p.IsIp → p.count < cs →
    ∀ y ys, todo = y :: ys → y.IsIp → y.offset ≠ w.offset
  clear : w.prev = none → ¬Clobbers cs w.offset todo

/-- `n` of the bytes have been queued, and the file is written as far. -/
def Advances (f : SparseFile β) (w : Walk β) (g : SparseFile β) (v : Walk β) : Prop :=
  ∃ n, n ≤ w.bytes.length ∧ g = f.put w.offset (w.bytes.take n) ∧
    v.offset = w.offset + n ∧ v.bytes = w.bytes.drop n

theorem Advances.of_eq {f : SparseFile β} {w v : Walk β}
    (hoffset : v.offset = w.offset) (hbytes : v.bytes = w.bytes) : Advances f w f v :=
  ⟨0, Nat.zero_le _, by simp, by simpa using hoffset, by simpa using hbytes⟩

theorem Advances.trans {f g h : SparseFile β} {u v w : Walk β}
    (huv : Advances f u g v) (hvw : Advances g v h w) : Advances f u h w := by
  obtain ⟨n, hn, rfl, hoffset, hbytes⟩ := huv
  obtain ⟨k, hk, rfl, hoffset', hbytes'⟩ := hvw
  rw [hbytes, List.length_drop] at hk
  refine ⟨n + k, by omega, ?_, by omega, ?_⟩
  · have hlength : (u.bytes.take n).length = n := by
      rw [List.length_take]
      omega
    have hsplit : u.bytes.take (n + k) =
        u.bytes.take n ++ (u.bytes.drop n).take k := List.take_add
    rw [hoffset, hbytes, hsplit, ← ByteFile.put_append, hlength]
  · rw [hbytes', hbytes, List.drop_drop]

section Lists

variable {raw f : SparseFile β} {a b c : List (WriteRequest β)}
  {fileSize offset : ℕ}

/-- The file is written when the requests from some place on change to hold the
new bytes and nothing before them covers these. -/
theorem Shows.write (h : Shows raw f (a ++ b) fileSize) {bytes : List β}
    (hbytes : bytes ≠ []) (hbefore : ∀ x ∈ a, x.stop ≤ offset)
    (hlookup : ∀ i, (requestSegments β).lookup c i =
      if offset ≤ i ∧ i < offset + bytes.length
      then some bytes[i - offset]?
      else (requestSegments β).lookup b i)
    (hwithin : ∀ r ∈ c, r.stop ≤ max fileSize (offset + bytes.length)) :
    Shows raw (f.put offset bytes) (a ++ c)
      (max fileSize (offset + bytes.length)) := by
  constructor
  · rw [ByteFile.put_size, if_neg hbytes, h.size]
  · intro r hr
    cases List.mem_append.1 hr with
    | inl hr =>
      exact le_max_of_le_left (h.within r (List.mem_append_left _ hr))
    | inr hr => exact hwithin r hr
  · intro i
    rw [ByteFile.put_byte, Segments.lookup_append, hlookup]
    split_ifs with hin
    · rw [Segments.lookup_eq_none]
      · rfl
      · intro x hx
        exact .inr ((hbefore x hx).trans hin.1)
    · rw [h.bytes, Segments.lookup_append]
  · exact le_max_of_le_left h.above
  · intro hmore
    have hlength := List.length_pos_iff.2 hbytes
    rw [Segments.lookup_append, hlookup, Option.isSome_or]
    split_ifs with hin
    · simp
    · -- the end of the file is where it was
      have hend : max fileSize (offset + bytes.length) = fileSize := by omega
      rw [hend] at hmore ⊢
      have htop := h.top hmore
      rw [Segments.lookup_append, Option.isSome_or] at htop
      exact htop

theorem sound_append {cs : ℕ} : Sound cs raw (a ++ b) ↔ Sound cs raw a ∧ Sound cs raw b :=
  List.forall_mem_append

theorem sound_cons {cs : ℕ} {r : WriteRequest β} :
    Sound cs raw (r :: b) ↔ (Fits cs r ∧ Backed raw r) ∧ Sound cs raw b :=
  List.forall_mem_cons

/-- Requests may change as long as they hold the same bytes. -/
theorem Shows.congr (h : Shows raw f a fileSize)
    (hwithin : ∀ r ∈ b, r.stop ≤ fileSize)
    (hsame : ∀ i, (requestSegments β).lookup b i =
      (requestSegments β).lookup a i) : Shows raw f b fileSize := by
  refine ⟨h.size, hwithin, ?_, h.above, ?_⟩
  · intro i
    rw [hsame]
    exact h.bytes i
  · intro hmore
    rw [hsame]
    exact h.top hmore

end Lists

section Promoted

variable (upTo : Option ℕ) (l : List (WriteRequest β))

theorem lookup_promote (i : ℕ) :
    (requestSegments β).lookup (l.map (WriteRequest.promote upTo)) i =
      (requestSegments β).lookup l i := by
  induction l with
  | nil => rfl
  | cons r rs ih =>
    rw [List.map_cons, lookup_request, lookup_request, ih, get_promote,
      promote_offset, promote_stop]

theorem inOrder_promote : InOrder (l.map (WriteRequest.promote upTo)) ↔ InOrder l := by
  simp [InOrder, Segments.Ordered, List.pairwise_map, requestSegments]

theorem sound_promote (cs : ℕ) (raw : SparseFile β) :
    Sound cs raw (l.map (WriteRequest.promote upTo)) ↔ Sound cs raw l := by
  simp only [Sound, List.forall_mem_map, fits_promote, backed_promote]

end Promoted

section Front

variable {cs : ℕ} {raw f : SparseFile β} {w : Walk β}
  {todo : List (WriteRequest β)}

theorem mem_front {w : Walk β} {x : WriteRequest β} :
    x ∈ w.front ↔ x ∈ w.before ++ w.skipped ∨ w.prev = some x := by
  simp only [Walk.front, List.mem_append, Option.mem_toList]
  tauto

/-- While bytes are pending the previous request ends where they go. -/
theorem WalkInv.prev_stop (h : WalkInv cs raw f w todo) (hbytes : w.bytes ≠ [])
    {p : WriteRequest β} (hp : w.prev = some p) : p.stop = w.offset := by
  have hle := h.pending hbytes p (mem_front.2 (.inr hp))
  have hge := h.reaches p hp
  omega

theorem growTo_fileSize (w : Walk β) (stop : ℕ) :
    (w.growTo stop).fileSize = max w.fileSize stop := by
  simp only [Walk.growTo]
  split_ifs <;> omega

/-- The invariant right behind a request that has become the previous one. -/
theorem WalkInv.of_prev {p : WriteRequest β} (hprev : w.prev = some p)
    (hskipped : w.skipped = [])
    (hshows : Shows raw f (w.before ++ p :: todo) w.fileSize)
    (hsound : Sound cs raw (w.before ++ p :: todo))
    (hbefore : InOrder w.before) (hlast : ∀ x ∈ w.before, x.stop ≤ p.offset)
    (hrest : InOrder todo) (hbelow : ∀ y ∈ todo, p.offset < y.offset)
    (hapart : p.IsIp → ∀ y ∈ todo, p.stop ≤ y.offset)
    (hreach : w.offset ≤ p.stop)
    (hpending : w.bytes ≠ [] → p.stop ≤ w.offset ∧ (¬p.IsIp → cs ≤ p.count) ∧
      (p.IsIp → p.count < cs → ∀ y ys, todo = y :: ys → y.IsIp →
        y.offset ≠ w.offset)) : WalkInv cs raw f w todo := by
  have hfront : w.front = w.before ++ [p] := by
    simp [Walk.front, hprev, hskipped]
  have hunique : ∀ q, w.prev = some q → q = p := by
    intro q hq
    simpa [hprev] using hq.symm
  constructor
  · rw [hfront, List.append_assoc]
    exact hshows
  · rw [hfront, List.append_assoc]
    exact hsound
  · rw [hfront]
    refine (Segments.ordered_append _).2 ⟨hbefore, by simp [Segments.Ordered], ?_⟩
    intro x hx y hy
    obtain rfl : y = p := by simpa using hy
    exact hlast x hx
  · exact hrest
  · intro x hx y hy
    rw [hskipped, List.append_nil] at hx
    exact (hlast x hx).trans (hbelow y hy).le
  · intro q hq
    exact hunique q hq ▸ hbelow
  · intro q hq
    exact hunique q hq ▸ hapart
  · intro q hq
    exact hunique q hq ▸ hreach
  · exact fun _ _ => hskipped
  · simp [hprev]
  · intro hbytes x hx
    obtain ⟨hstop, -⟩ := hpending hbytes
    rw [hfront, List.mem_append, List.mem_singleton] at hx
    cases hx with
    | inl hx =>
      have hp : p.stop = p.offset + p.count := rfl
      have hle := hlast x hx
      omega
    | inr hx => exact hx ▸ hstop
  · intro hbytes q hq
    exact hunique q hq ▸ (hpending hbytes).2.1
  · intro hbytes q hq
    exact hunique q hq ▸ (hpending hbytes).2.2
  · intro hnone
    simp [hprev] at hnone

end Front

section Insert

variable {cs : ℕ} {raw f : SparseFile β} {w : Walk β}
  {todo : List (WriteRequest β)}

/-- Inserting a request queues its bytes. -/
theorem WalkInv.insert (h : WalkInv cs raw f w todo) (hcs : 0 < cs)
    (hbytes : w.bytes ≠ []) (hbefore : ∀ y ∈ todo, w.offset < y.offset) :
    WalkInv cs raw (f.put w.offset (w.bytes.take cs)) (w.insert cs) todo ∧
      Advances f w (f.put w.offset (w.bytes.take cs)) (w.insert cs) ∧
      (w.insert cs).bytes.length < w.bytes.length := by
  have hlength : 0 < w.bytes.length := List.length_pos_iff.2 hbytes
  obtain ⟨req, hreq⟩ : ∃ req, req = w.newRequest cs := ⟨_, rfl⟩
  have hdata : req.data = w.bytes.take cs := by rw [hreq]; rfl
  have hoffset : req.offset = w.offset := by rw [hreq]; rfl
  have hcount : req.count = min cs w.bytes.length := by
    rw [WriteRequest.count, hdata, List.length_take]
  have hstop : req.stop = w.offset + req.count := by
    rw [WriteRequest.stop, hoffset]
    rfl
  have hip : ¬req.IsIp := by
    rw [hreq, WriteRequest.IsIp, Walk.newRequest]
    dsimp only
    split_ifs <;> simp
  have hprev : (w.insert cs).prev = some req := by rw [hreq]; rfl
  have hnext : (w.insert cs).offset = w.offset + req.count := by
    rw [hreq]
    rfl
  have hleft : (w.insert cs).bytes = w.bytes.drop req.count := by
    rw [hreq]
    rfl
  have htake : w.bytes.take req.count = w.bytes.take cs := by
    rw [hcount, List.take_eq_take_iff]
    omega
  have hnonempty : w.bytes.take cs ≠ [] := by
    apply List.length_pos_iff.1
    rw [List.length_take]
    omega
  -- when bytes are left the new request is full
  have hfull : (w.insert cs).bytes ≠ [] → req.count = cs := by
    intro hmore
    rw [hleft] at hmore
    have := List.length_pos_iff.2 hmore
    rw [List.length_drop] at this
    omega
  have hshows : Shows raw (f.put w.offset (w.bytes.take cs))
      (w.front ++ (req :: todo)) (max w.fileSize req.stop) := by
    have hreach : req.stop = w.offset + (w.bytes.take cs).length := by
      rw [hstop, WriteRequest.count, hdata]
    rw [hreach]
    apply h.shows.write hnonempty (h.pending hbytes)
    rotate_left
    · intro r hr
      cases List.mem_cons.1 hr with
      | inl hr =>
        rw [hr, hreach]
        exact le_max_right _ _
      | inr hr =>
        exact le_max_of_le_left (h.shows.within r (List.mem_append_right _ hr))
    intro i
    rw [lookup_request, hoffset, hreach]
    split_ifs
    · simp only [requestSegments, hdata, hoffset]
    · rfl
  have hgrown : (w.insert cs).fileSize = max w.fileSize req.stop := by
    rw [hreq]
    exact growTo_fileSize _ _
  refine ⟨?_, ⟨req.count, by omega, by rw [htake], hnext, hleft⟩, ?_⟩
  · apply WalkInv.of_prev hprev rfl
    · rw [hgrown]
      exact hshows
    · obtain ⟨hfront, htodo⟩ := sound_append.1 h.sound
      exact sound_append.2 ⟨hfront, sound_cons.2
        ⟨⟨⟨by omega, by omega⟩, fun hx => absurd hx hip⟩, htodo⟩⟩
    · exact h.front
    · intro x hx
      exact (h.pending hbytes x hx).trans hoffset.ge
    · exact h.rest
    · intro y hy
      exact hoffset ▸ hbefore y hy
    · exact fun hreq => absurd hreq hip
    · omega
    · intro hmore
      exact ⟨by omega, fun _ => (hfull hmore).ge, fun hreq => absurd hreq hip⟩
  · rw [hleft, List.length_drop]
    omega

/-- What the insertion loop leaves. -/
structure InsertSpec (cs : ℕ) (raw f : SparseFile β) (limit : Option ℕ)
    (w : Walk β) (todo : List (WriteRequest β)) (ok : Bool)
    (v : Walk β) (g : SparseFile β) : Prop where
  inv : WalkInv cs raw g v todo
  advances : Advances f w g v
  blocked : ok = true ↔ Blocked limit v
  shorter : v.bytes.length ≤ w.bytes.length
  moves : ¬Blocked limit w → ok = true → v.bytes.length < w.bytes.length
  still : v.prev = none → v = w

theorem insertRequests_spec (hcs : 0 < cs) (limit : Option ℕ) (fuel : ℕ)
    (hfuel : w.bytes.length ≤ fuel) (h : WalkInv cs raw f w todo)
    (hlimit : ∀ y ∈ todo, ∃ l, limit = some l ∧ l ≤ y.offset) :
    ∃ ok v g, insertRequests cs limit fuel w = (ok, v) ∧
      InsertSpec cs raw f limit w todo ok v g := by
  induction fuel generalizing w f with
  | zero =>
    have hempty : w.bytes = [] := List.length_eq_zero_iff.1 (by omega)
    exact ⟨true, w, f, rfl, h, .of_eq rfl rfl, by simp [Blocked, hempty],
      le_rfl, fun hnot => absurd (.inl hempty) hnot, fun _ => rfl⟩
  | succ fuel ih =>
    rw [insertRequests]
    by_cases hblocked : Blocked limit w
    · rw [if_pos hblocked]
      exact ⟨true, w, f, rfl, h, .of_eq rfl rfl, by simp [hblocked], le_rfl,
        fun hnot => absurd hblocked hnot, fun _ => rfl⟩
    rw [if_neg hblocked]
    by_cases hblocks : w.blocks = 0
    · rw [if_pos hblocks]
      exact ⟨false, w, f, rfl, h, .of_eq rfl rfl, by simp [hblocked], le_rfl,
        fun _ hfalse => by simp at hfalse, fun _ => rfl⟩
    rw [if_neg hblocks]
    have hbytes : w.bytes ≠ [] := fun hempty => hblocked (.inl hempty)
    have hbefore : ∀ y ∈ todo, w.offset < y.offset := by
      intro y hy
      obtain ⟨l, hl, hle⟩ := hlimit y hy
      by_contra hnot
      exact hblocked (.inr ⟨l, hl, by omega⟩)
    obtain ⟨hinv, hadv, hless⟩ := h.insert hcs hbytes hbefore
    obtain ⟨ok, v, g, hrun, hspec⟩ := ih (by omega) hinv
    have hshorter := hspec.shorter
    refine ⟨ok, v, g, hrun, hspec.inv, hadv.trans hspec.advances,
      hspec.blocked, by omega, fun _ _ => by omega, fun hnone => ?_⟩
    rw [hspec.still hnone] at hnone
    exact absurd hnone (Option.some_ne_none _)

end Insert

section Merge

variable {cs : ℕ} {raw f : SparseFile β} {w : Walk β} {req p : WriteRequest β}
  {rest : List (WriteRequest β)} {m : Merged β}

/-- Bytes that wait for the index partition are merged with such bytes only. -/
theorem MergeSpec.backed (hm : MergeSpec cs p req m) (hp : Backed raw p)
    (hreq : Backed raw req) : Backed raw m.dest := by
  intro hip
  obtain ⟨hpsize, hpget⟩ := hp (hm.destIp.1 hip)
  have hmoved := hm.moved
  have hstart := hm.start
  have hle := hm.stop_le
  constructor
  · by_cases hmore : p.stop < m.dest.stop
    · obtain ⟨-, hsame, hin, -⟩ := hmoved hmore
      exact hin.trans (hreq (hsame.1 (hm.destIp.1 hip))).1
    · omega
  · intro i hlo hhi
    have hbyte := hm.bytes i
    rw [Segments.lookup_cons, if_pos ⟨hlo, hhi⟩, lookup_two] at hbyte
    by_cases hold : i < p.stop
    · rw [if_pos ⟨by omega, hold⟩, Option.some.injEq] at hbyte
      rw [hbyte, hpget i (by omega) hold]
    · obtain ⟨-, hsame, hin, hoverlap⟩ := hmoved (by omega)
      rw [if_neg (by omega), if_pos ⟨by omega, by omega⟩, Option.some.injEq] at hbyte
      rw [hbyte]
      exact (hreq (hsame.1 (hm.destIp.1 hip))).2 i (by omega) (by omega)

/-- What a merge leaves of the second request. -/
theorem MergeSpec.left (hm : MergeSpec cs p req m) (hreq : Backed raw req) :
    ∀ y ∈ m.src.toList, Fits cs y ∧ Backed raw y ∧
      req.offset ≤ y.offset ∧ y.stop = req.stop ∧ m.dest.stop ≤ y.offset := by
  intro y hy
  obtain ⟨hfits, hip, hlo, hhi, hdest, hget⟩ := hm.rest y (Option.mem_toList.1 hy)
  refine ⟨hfits, ?_, hlo, hhi, hdest⟩
  intro hyip
  obtain ⟨hsize, hsget⟩ := hreq (hip.1 hyip)
  refine ⟨hhi ▸ hsize, fun i hi hi' => ?_⟩
  rw [hget i hi, hsget i (hlo.trans hi) (hhi ▸ hi')]

theorem MergeSpec.dest_stop (hm : MergeSpec cs p req m) :
    m.dest.stop ≤ max p.stop req.stop := by
  by_cases hmore : p.stop < m.dest.stop
  · exact le_max_of_le_right (hm.moved hmore).2.2.1
  · exact le_max_of_le_left (not_lt.1 hmore)

/-- The merged requests show the same file, whatever becomes ready. -/
theorem Shows.merge {a b : List (WriteRequest β)} {fileSize : ℕ}
    (h : Shows raw f (a ++ p :: req :: b) fileSize) (hm : MergeSpec cs p req m)
    (upTo : Option ℕ) :
    Shows raw f (a.map (.promote upTo) ++
      m.dest :: (m.src.toList ++ b.map (.promote upTo))) fileSize := by
  have hdest := hm.dest_stop
  have hwithin := h.within
  simp only [List.forall_mem_append, List.forall_mem_cons] at hwithin
  apply h.congr
  · simp only [List.forall_mem_append, List.forall_mem_cons, List.forall_mem_map,
      promote_stop]
    refine ⟨hwithin.1, by omega, fun y hy => ?_, hwithin.2.2.2⟩
    obtain ⟨-, -, -, hstop, -⟩ := hm.rest y (Option.mem_toList.1 hy)
    omega
  · intro i
    rw [← List.cons_append, Segments.lookup_append, Segments.lookup_append,
      lookup_promote, lookup_promote, hm.bytes i, Segments.lookup_append]
    congr 1
    exact (Segments.lookup_append _ [p, req] b i).symm

theorem Sound.merge {a b : List (WriteRequest β)} (h : Sound cs raw (a ++ p :: req :: b))
    (hm : MergeSpec cs p req m) (upTo : Option ℕ) :
    Sound cs raw (a.map (.promote upTo) ++
      m.dest :: (m.src.toList ++ b.map (.promote upTo))) := by
  simp only [sound_append, sound_cons, sound_promote] at h ⊢
  obtain ⟨ha, hp, hreq, hb⟩ := h
  refine ⟨ha, ⟨hm.destFits, hm.backed hp.2 hreq.2⟩, fun y hy => ?_, hb⟩
  obtain ⟨hfits, hbacked, -⟩ := hm.left hreq.2 y hy
  exact ⟨hfits, hbacked⟩

/-- While bytes are pending a merge moves none behind the previous request. -/
theorem WalkInv.no_move (h : WalkInv cs raw f w (req :: rest)) (hbytes : w.bytes ≠ [])
    (hp : w.prev = some p) (hm : MergeSpec cs p req m) : m.dest.stop = p.stop := by
  by_contra hne
  obtain ⟨hroom, hsame, -, hoverlap⟩ := hm.moved (lt_of_le_of_ne hm.stop_le (Ne.symm hne))
  have hpip : p.IsIp := by
    by_contra hnot
    have hfull := h.full hbytes p hp hnot
    omega
  have hapart := h.apart p hp hpip req (by simp)
  have hstop := h.prev_stop hbytes hp
  exact h.untouched hbytes p hp hpip hroom req rest rfl (hsame.1 hpip) (by omega)

/-- The requests of a walk with a previous request. -/
theorem WalkInv.before_order (h : WalkInv cs raw f w rest)
    (hp : w.prev = some p) : InOrder w.before ∧ ∀ x ∈ w.before, x.stop ≤ p.offset := by
  have hfront := h.front
  rw [Walk.front, hp, h.close p hp, List.append_nil, Option.toList_some] at hfront
  obtain ⟨hbefore, -, hlast⟩ := (Segments.ordered_append _).1 hfront
  exact ⟨hbefore, fun x hx => hlast x hx p (by simp)⟩

/-- What merging the current request into the previous one leaves. -/
structure PrevSpec (cs : ℕ) (raw f : SparseFile β) (w : Walk β)
    (req : WriteRequest β) (rest : List (WriteRequest β))
    (r : Walk β × Option (WriteRequest β) × List (WriteRequest β) × Bool) :
    Prop where
  inv : WalkInv cs raw f r.1 (r.2.1.toList ++ r.2.2.1)
  offset : r.1.offset = w.offset
  bytes : r.1.bytes = w.bytes
  length : r.2.2.1.length = rest.length
  left : ∀ s, r.2.1 = some s → s.stop = req.stop ∧ req.offset ≤ s.offset ∧
    ∀ p, r.1.prev = some p → p.stop ≤ s.offset
  unchanged : r.2.2.2 = false → r.2.1 = some req
  covered : ∀ p, w.prev = some p → req.stop < p.stop → r.2.1 = none

/-- The invariant behind a merge with the previous request. -/
theorem WalkInv.merge (h : WalkInv cs raw f w (req :: rest)) (hp : w.prev = some p)
    (hm : MergeSpec cs p req m) {v : Walk β}
    (hbefore : v.before = w.before.map (.promote m.promoted)) (hprev : v.prev = some m.dest)
    (hskipped : v.skipped = []) (hsize : v.fileSize = w.fileSize)
    (hoffset : v.offset = w.offset) (hbytes : v.bytes = w.bytes) :
    WalkInv cs raw f v (m.src.toList ++ rest.map (.promote m.promoted)) := by
  obtain ⟨horder, hlast⟩ := h.before_order hp
  obtain ⟨hreqRest, hrest⟩ := (Segments.ordered_cons _).1 h.rest
  have hfront : w.front = w.before ++ [p] := by
    simp [Walk.front, hp, h.close p hp]
  have hlist : w.front ++ req :: rest = w.before ++ p :: req :: rest := by
    simp [hfront]
  have hsound := h.sound req (by simp)
  have hbelow := h.below p hp
  -- what is left of the request lies before the rest of the list
  have hleft := hm.left hsound.2
  have htodo : ∀ y ∈ m.src.toList ++ rest.map (.promote m.promoted),
      (y ∈ m.src.toList ∨ ∃ x ∈ rest, y = x.promote m.promoted) := by
    intro y hy
    simp only [List.mem_append, List.mem_map] at hy
    rcases hy with hy | ⟨x, hx, rfl⟩
    · exact .inl hy
    · exact .inr ⟨x, hx, rfl⟩
  apply WalkInv.of_prev hprev hskipped
  · rw [hsize, hbefore]
    exact (hlist ▸ h.shows).merge hm m.promoted
  · rw [hbefore]
    exact Sound.merge (hlist ▸ h.sound) hm m.promoted
  · rw [hbefore]
    exact (inOrder_promote _ _).2 horder
  · rw [hbefore]
    intro x hx
    obtain ⟨y, hy, rfl⟩ := List.mem_map.1 hx
    rw [promote_stop, hm.start]
    exact hlast y hy
  · refine (Segments.ordered_append _).2 ⟨?_, (inOrder_promote _ _).2 hrest, ?_⟩
    · cases m.src <;> simp [Segments.Ordered]
    · intro x hx y hy
      obtain ⟨z, hz, rfl⟩ := List.mem_map.1 hy
      have hstop := (hleft x hx).2.2.2.1
      have hle : req.stop ≤ z.offset := hreqRest z hz
      have hlo : (requestSegments β).lo (z.promote m.promoted) = z.offset :=
        promote_offset _ _
      rw [hlo]
      exact hstop.le.trans hle
  · intro y hy
    rw [hm.start]
    rcases htodo y hy with hy | ⟨x, hx, rfl⟩
    · exact (hbelow req (by simp)).trans_le (hleft y hy).2.2.1
    · rw [promote_offset]
      exact hbelow x (by simp [hx])
  · intro hip y hy
    rcases htodo y hy with hy | ⟨x, hx, rfl⟩
    · exact (hleft y hy).2.2.2.2
    · rw [promote_offset]
      have hpx := h.apart p hp (hm.destIp.1 hip) x (by simp [hx])
      have hrx : req.stop ≤ x.offset := hreqRest x hx
      have hdest := hm.dest_stop
      omega
  · rw [hoffset]
    exact (h.reaches p hp).trans hm.stop_le
  · rw [hbytes, hoffset]
    intro hpending
    have hstop := h.no_move hpending hp hm
    have hprevStop := h.prev_stop hpending hp
    have hcount : m.dest.count = p.count := by
      have hd : m.dest.stop = m.dest.offset + m.dest.count := rfl
      have hp' : p.stop = p.offset + p.count := rfl
      have hstart := hm.start
      omega
    refine ⟨by omega, ?_, ?_⟩
    · intro hip
      rw [hcount]
      exact h.full hpending p hp fun hpip => hip (hm.destIp.2 hpip)
    · intro hip hroom y ys htodo' hyip heq
      have hpip := hm.destIp.1 hip
      have hapart := h.apart p hp hpip req (by simp)
      cases hsrc : m.src with
      | none =>
        rw [hsrc, Option.toList_none, List.nil_append] at htodo'
        obtain ⟨x, hx, rfl⟩ : ∃ x ∈ rest, x.promote m.promoted = y := by
          apply List.mem_map.1
          rw [htodo']
          exact List.mem_cons_self
        have hle : req.stop ≤ x.offset := hreqRest x hx
        have hpos := hsound.1.1
        have hreq : req.stop = req.offset + req.count := rfl
        rw [promote_offset] at heq
        omega
      | some r =>
        rw [hsrc, Option.toList_some, List.singleton_append, List.cons.injEq] at htodo'
        obtain ⟨-, hrip, hlo, -⟩ := hm.rest r hsrc
        obtain ⟨rfl, -⟩ := htodo'
        exact h.untouched hpending p hp hpip (hcount ▸ hroom) req rest rfl
          (hrip.1 hyip) (by omega)

theorem mergePrev_spec (h : WalkInv cs raw f w (req :: rest)) :
    PrevSpec cs raw f w req rest (mergePrev cs w req rest) := by
  cases hp : w.prev with
  | none =>
    have hm : mergePrev cs w req rest = (w, some req, rest, false) := by
      simp [mergePrev, hp]
    rw [hm]
    refine ⟨h, rfl, rfl, rfl, ?_, fun _ => rfl, fun p hp' => ?_⟩
    · simp [hp]
    · simp [hp] at hp'
  | some p =>
    have hmem : p ∈ w.front := mem_front.2 (.inr hp)
    have hpFits := (h.sound p (List.mem_append_left _ hmem)).1
    have hreqFits := (h.sound req (by simp)).1
    have hbelow := h.below p hp req (by simp)
    have hm := mergeRequests_spec hpFits hreqFits hbelow.le
    have hreached : (mergeRequests cs p req).reached ≤ w.fileSize := by
      have hpsize := h.shows.within p (List.mem_append_left _ hmem)
      have hreqSize := h.shows.within req (by simp)
      have hle := hm.reached
      have hdest := hm.dest_stop
      omega
    have hsize : max w.fileSize (mergeRequests cs p req).reached =
        w.fileSize := max_eq_left hreached
    have hrun : mergePrev cs w req rest =
        (({ w.promote (mergeRequests cs p req).promoted with
            prev := some (mergeRequests cs p req).dest }).growTo
              (mergeRequests cs p req).reached,
          (mergeRequests cs p req).src,
          rest.map (.promote (mergeRequests cs p req).promoted),
          (mergeRequests cs p req).changed) := by
      simp [mergePrev, hp]
    rw [hrun]
    have hinv := h.merge hp hm (v := ({ w.promote
      (mergeRequests cs p req).promoted with
        prev := some (mergeRequests cs p req).dest }).growTo
          (mergeRequests cs p req).reached) rfl rfl
      (by simp [Walk.growTo, Walk.promote, h.close p hp])
      ((growTo_fileSize _ _).trans hsize) rfl rfl
    refine ⟨hinv, rfl, rfl, List.length_map _, ?_, ?_, ?_⟩
    · intro s hs
      obtain ⟨-, -, hlo, hhi, hdest, -⟩ := hm.rest s hs
      refine ⟨hhi, hlo, fun q hq => ?_⟩
      obtain rfl : (mergeRequests cs p req).dest = q := by
        simpa [Walk.growTo] using hq
      exact hdest
    · exact fun hsame => (hm.unchanged hsame).2
    · intro q hq hcovered
      obtain rfl : p = q := by simpa [hp] using hq
      cases hsrc : (mergeRequests cs p req).src with
      | none => rfl
      | some r =>
        obtain ⟨hfits, -, -, hhi, hdest, -⟩ := hm.rest r hsrc
        have hr : r.stop = r.offset + r.count := rfl
        have hpos := hfits.1
        have hle := hm.stop_le
        omega

end Merge

section Thin

variable {cs : ℕ} {raw f : SparseFile β} {req : WriteRequest β}
  {a b : List (WriteRequest β)} {fileSize : ℕ}

/-- A request that waits for the index partition may be replaced by parts of
it: what is gone is still in the file below. -/
theorem Shows.thin (h : Shows raw f (a ++ req :: b) fileSize)
    (mid : List (WriteRequest β)) (hip : req.IsIp)
    (hbacked : Backed raw req)
    (hbehind : ∀ y ∈ b, req.stop ≤ y.offset)
    (hmid : ∀ r ∈ mid, r.IsIp ∧ Backed raw r ∧ req.offset ≤ r.offset ∧
      r.stop ≤ req.stop) : Shows raw f (a ++ (mid ++ b)) fileSize := by
  have hreq := h.within req (by simp)
  -- only bytes that the request covers may be looked up elsewhere
  have hsame : ∀ i, (requestSegments β).lookup (a ++ (mid ++ b)) i =
      (requestSegments β).lookup (a ++ req :: b) i ∨ i < raw.size ∧
        ((requestSegments β).lookup (a ++ (mid ++ b)) i).getD (raw.byte i) =
          ((requestSegments β).lookup (a ++ req :: b) i).getD (raw.byte i) := by
    intro i
    rw [Segments.lookup_append, Segments.lookup_append, Segments.lookup_append,
      lookup_request]
    cases (requestSegments β).lookup a i with
    | some x => exact .inl rfl
    | none =>
      simp only [Option.none_or]
      by_cases hin : req.offset ≤ i ∧ i < req.stop
      · right
        have hb : (requestSegments β).lookup b i = none := by
          apply Segments.lookup_eq_none
          intro y hy
          exact .inl (hin.2.trans_le (hbehind y hy))
        have hreqByte := (hbacked hip).2 i hin.1 hin.2
        rw [if_pos hin, hb, Option.or_none, Option.getD_some, hreqByte]
        refine ⟨hin.2.trans_le (hbacked hip).1, ?_⟩
        cases hlookup : (requestSegments β).lookup mid i with
        | none => rfl
        | some x =>
          obtain ⟨r, hr, hlo, hhi, rfl⟩ := Segments.exists_of_lookup _ hlookup
          obtain ⟨hrip, hrbacked, -⟩ := hmid r hr
          exact (hrbacked hrip).2 i hlo hhi
      · left
        have hnone : (requestSegments β).lookup mid i = none := by
          apply Segments.lookup_eq_none
          intro r hr
          obtain ⟨-, -, hlo, hhi⟩ := hmid r hr
          have hlo' : (requestSegments β).lo r = r.offset := rfl
          have hhi' : (requestSegments β).hi r = r.stop := rfl
          omega
        rw [if_neg hin, hnone, Option.none_or]
  constructor
  · exact h.size
  · intro r hr
    simp only [List.mem_append] at hr
    rcases hr with hr | hr | hr
    · exact h.within r (by simp [hr])
    · exact (hmid r hr).2.2.2.trans hreq
    · exact h.within r (by simp [hr])
  · intro i
    rw [h.bytes]
    cases hsame i with
    | inl heq => rw [heq]
    | inr heq => exact heq.2.symm
  · exact h.above
  · intro hmore
    cases hsame (fileSize - 1) with
    | inl heq =>
      rw [heq]
      exact h.top hmore
    | inr heq => omega

/-- The parts lie in order where the request did. -/
theorem InOrder.thin (h : InOrder (a ++ req :: b)) {mid : List (WriteRequest β)}
    (hmid : InOrder mid) (hparts : ∀ r ∈ mid, req.offset ≤ r.offset ∧
      r.stop ≤ req.stop) : InOrder (a ++ (mid ++ b)) := by
  obtain ⟨ha, htail, hbefore⟩ := (Segments.ordered_append _).1 h
  obtain ⟨hbehind, hb⟩ := (Segments.ordered_cons _).1 htail
  refine (Segments.ordered_append _).2 ⟨ha, (Segments.ordered_append _).2
    ⟨hmid, hb, fun x hx y hy => (hparts x hx).2.trans (hbehind y hy)⟩, ?_⟩
  intro x hx y hy
  cases List.mem_append.1 hy with
  | inl hy => exact (hbefore x hx req (by simp)).trans (hparts y hy).1
  | inr hy => exact hbefore x hx y (by simp [hy])

/-- The part of a request from its byte `n` on. -/
theorem trimBegin_part {n : ℕ} (hn : n < req.count) (hfits : Fits cs req)
    (hip : req.IsIp) (hbacked : Backed raw req) :
    (req.trimBegin n).offset = req.offset + n ∧
      (req.trimBegin n).stop = req.stop ∧ (req.trimBegin n).IsIp ∧
      Fits cs (req.trimBegin n) ∧ Backed raw (req.trimBegin n) := by
  have hcount : (req.trimBegin n).count = req.count - n := by
    simp [WriteRequest.trimBegin, WriteRequest.count]
  have hstop : (req.trimBegin n).stop = req.stop := by
    have h : (req.trimBegin n).stop = req.offset + n + (req.trimBegin n).count := rfl
    have h' : req.stop = req.offset + req.count := rfl
    omega
  obtain ⟨hpos, hle⟩ := hfits
  refine ⟨rfl, hstop, hip, ⟨by omega, by omega⟩, fun _ => ?_⟩
  obtain ⟨hsize, hget⟩ := hbacked hip
  refine ⟨hstop ▸ hsize, fun i hlo hhi => ?_⟩
  have hlo' : req.offset + n ≤ i := hlo
  rw [← hget i (by omega) (hstop ▸ hhi)]
  simp only [requestSegments, WriteRequest.trimBegin, List.getElem?_drop]
  congr 1
  omega

/-- The part of a request before file offset `stop`. -/
theorem trimEnd_part {stop : ℕ} (hlo : req.offset < stop) (hhi : stop ≤ req.stop)
    (hfits : Fits cs req) (hip : req.IsIp) (hbacked : Backed raw req) :
    (req.trimEnd stop).offset = req.offset ∧ (req.trimEnd stop).stop = stop ∧
      (req.trimEnd stop).IsIp ∧ Fits cs (req.trimEnd stop) ∧
      Backed raw (req.trimEnd stop) := by
  have hreq : req.stop = req.offset + req.count := rfl
  have hcount : (req.trimEnd stop).count = stop - req.offset := by
    rw [WriteRequest.count, WriteRequest.trimEnd, List.length_take]
    rw [WriteRequest.count] at hreq
    omega
  have hstop : (req.trimEnd stop).stop = stop := by
    have h : (req.trimEnd stop).stop = req.offset + (req.trimEnd stop).count := rfl
    omega
  obtain ⟨hpos, hle⟩ := hfits
  refine ⟨rfl, hstop, hip, ⟨by omega, by omega⟩, fun _ => ?_⟩
  obtain ⟨hsize, hget⟩ := hbacked hip
  refine ⟨by omega, fun i hlo' hhi' => ?_⟩
  have hlo'' : req.offset ≤ i := hlo'
  rw [← hget i hlo'' (by omega)]
  simp only [requestSegments, WriteRequest.trimEnd]
  rw [List.getElem?_take_of_lt (by omega)]

end Thin

end AuroraLtfs.Sched
