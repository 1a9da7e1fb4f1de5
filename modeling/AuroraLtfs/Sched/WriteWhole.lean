import AuroraLtfs.Sched.WriteBetween

/-!
# Writes that find enough cache blocks

Every request that is inserted takes a cache block and at least one byte of the
buffer, and at most one more block is needed to split a request.  So a write that
finds more cache blocks than it has bytes does not have to wait: it is queued
whole.
-/

namespace AuroraLtfs.Sched

variable {β : Type*}

/-- Nothing is left to queue, or there are more cache blocks than bytes. -/
def Walk.Funded (w : Walk β) : Prop :=
  w.bytes = [] ∨ w.bytes.length < w.blocks

/-- The block for a split is spent, but all that is left goes in front of the next
request. -/
def Walk.Split (w : Walk β) (todo : List (WriteRequest β)) : Prop :=
  w.bytes.length ≤ w.blocks ∧ ∃ req rest, todo = req :: rest ∧
    w.offset + w.bytes.length ≤ req.offset

/-- The round does not stop for want of a cache block, and leaves enough. -/
def Round.Funded : Round β → Prop
  | .next w _ => w.Funded
  | .again w todo => w.Funded ∨ w.Split todo
  | .stop exit _ _ => exit = .finished

section Insert

variable {cs : ℕ} {w : Walk β}

theorem length_insert (hcs : 0 < cs) (hbytes : w.bytes ≠ []) :
    (w.insert cs).bytes.length < w.bytes.length := by
  have hpos := List.length_pos_iff.2 hbytes
  simp only [Walk.insert, Walk.advance, Walk.growTo, Walk.pass, Walk.newRequest,
    WriteRequest.count, List.length_drop, List.length_take]
  omega

theorem insertRequests_funded (hcs : 0 < cs) (limit : Option ℕ) (fuel : ℕ)
    (h : w.Funded) : (insertRequests cs limit fuel w).1 = true ∧
      (insertRequests cs limit fuel w).2.Funded := by
  induction fuel generalizing w with
  | zero => exact ⟨rfl, h⟩
  | succ fuel ih =>
    rw [insertRequests]
    split_ifs with hblocked hblocks
    · exact ⟨rfl, h⟩
    · have hbytes : w.bytes ≠ [] := fun hempty => hblocked (.inl hempty)
      have hmore := h.resolve_left hbytes
      omega
    · have hbytes : w.bytes ≠ [] := fun hempty => hblocked (.inl hempty)
      have hmore := h.resolve_left hbytes
      have hless := length_insert hcs hbytes
      have hspent : (w.insert cs).blocks = w.blocks - 1 := rfl
      exact ih (.inr (by omega))

/-- All that goes in front of a request is inserted. -/
theorem insertRequests_exact (hcs : 0 < cs) {limit : ℕ} (fuel : ℕ)
    (hfuel : w.bytes.length ≤ fuel) (hblocks : w.bytes.length ≤ w.blocks)
    (hlimit : w.offset + w.bytes.length ≤ limit) :
    (insertRequests cs (some limit) fuel w).1 = true ∧
      (insertRequests cs (some limit) fuel w).2.bytes = [] := by
  induction fuel generalizing w with
  | zero => exact ⟨rfl, List.length_eq_zero_iff.1 (Nat.le_zero.1 hfuel)⟩
  | succ fuel ih =>
    rw [insertRequests]
    split_ifs with hblocked hnone
    · refine ⟨rfl, hblocked.elim id ?_⟩
      rintro ⟨l, hl, hle⟩
      obtain rfl : limit = l := by simpa using hl
      exact List.length_eq_zero_iff.1 (show w.bytes.length = 0 by omega)
    · exact absurd (.inl (List.length_eq_zero_iff.1 (by omega))) hblocked
    · have hbytes : w.bytes ≠ [] := fun hempty => hblocked (.inl hempty)
      have hless := length_insert hcs hbytes
      have hspent : (w.insert cs).blocks = w.blocks - 1 := rfl
      have hend : (w.insert cs).offset + (w.insert cs).bytes.length =
          w.offset + w.bytes.length := by
        simp only [Walk.insert, Walk.advance, Walk.growTo, Walk.pass,
          Walk.newRequest, WriteRequest.count, List.length_drop, List.length_take]
        omega
      exact ih (by omega) (by omega) (by omega)

end Insert

section Rounds

variable {cs : ℕ} {w : Walk β} {req : WriteRequest β}
  {rest : List (WriteRequest β)}

theorem Walk.Funded.of_eq {v : Walk β} (h : w.Funded) (hbytes : v.bytes = w.bytes)
    (hblocks : v.blocks = w.blocks) : v.Funded := by
  rw [Walk.Funded, hbytes, hblocks]
  exact h

theorem Walk.Funded.advance (h : w.Funded) (n : ℕ) : (w.advance n).Funded := by
  rcases h with hempty | hmore
  · exact .inl (by simp [Walk.advance, hempty])
  · right
    have hlength : (w.advance n).bytes.length = w.bytes.length - n := List.length_drop
    have hblocks : (w.advance n).blocks = w.blocks := rfl
    omega

/-- Merging takes no block and queues nothing. -/
theorem mergePrev_same (cs : ℕ) (w : Walk β) (req : WriteRequest β)
    (rest : List (WriteRequest β)) :
    (mergePrev cs w req rest).1.bytes = w.bytes ∧
      (mergePrev cs w req rest).1.blocks = w.blocks := by
  rw [mergePrev]
  split <;> exact ⟨rfl, rfl⟩

theorem overlap_funded (h : w.Funded) (hbytes : w.bytes ≠ []) :
    (overlap cs w req rest).Funded := by
  have hmore := h.resolve_left hbytes
  rw [overlap]
  split_ifs with hbefore hupdate hcut hremove hbegin hend hblocks
  · exact .inl h
  · exact (h.of_eq (v := (w.promote _).growTo _) rfl rfl).advance _
  · exact h
  · exact .inl h
  · exact h
  · omega
  · -- the split
    right
    have hlength := List.length_pos_iff.2 hbytes
    refine ⟨show w.bytes.length ≤ w.blocks - 1 by omega, _, _, rfl, ?_⟩
    show w.offset + w.bytes.length ≤ req.offset + (w.offset - req.offset + w.bytes.length)
    omega
  · exact h

theorem visit_funded (hcs : 0 < cs) (h : w.Funded ∨ w.Split (req :: rest)) :
    (visit cs w req rest).Funded := by
  have hinsert : (insertRequests cs (some req.offset) w.bytes.length w).1 = true ∧
      (insertRequests cs (some req.offset) w.bytes.length w).2.Funded := by
    rcases h with hfunded | ⟨hblocks, req', rest', heq, hlimit⟩
    · exact insertRequests_funded hcs _ _ hfunded
    · obtain ⟨rfl, rfl⟩ := List.cons.inj heq
      have hexact := insertRequests_exact hcs _ le_rfl hblocks hlimit
      exact ⟨hexact.1, .inl hexact.2⟩
  rw [visit]
  generalize insertRequests cs (some req.offset) w.bytes.length w = r at hinsert ⊢
  obtain ⟨ok, v⟩ := r
  obtain ⟨rfl, hv⟩ := hinsert
  obtain ⟨hbytes, hblocks⟩ := mergePrev_same cs v req rest
  dsimp only
  generalize mergePrev cs v req rest = merged at hbytes hblocks ⊢
  obtain ⟨u, src, rest', changed⟩ := merged
  have hu : u.Funded := Walk.Funded.of_eq hv hbytes hblocks
  cases src with
  | none => exact hu
  | some req =>
    dsimp only
    split_ifs with hdone
    · exact hu
    · rfl
    · exact overlap_funded hu hdone

theorem round_funded (hcs : 0 < cs) (atHead : Bool)
    (h : w.Funded ∨ atHead = false ∧ w.Split (req :: rest)) :
    (round cs atHead w req rest).Funded := by
  rw [round]
  split_ifs with hskip
  · have hw : w.Funded := h.resolve_right fun hsplit => by simp [hsplit.1] at hskip
    obtain ⟨hbytes, hblocks⟩ := mergePrev_same cs w req rest
    generalize mergePrev cs w req rest = merged at hbytes hblocks ⊢
    obtain ⟨u, src, rest', changed⟩ := merged
    exact Walk.Funded.of_eq (v := u.skip src) hw hbytes hblocks
  · exact visit_funded hcs (h.imp_right And.right)

/-- The walk does not stop for want of a cache block. -/
theorem walk_funded (hcs : 0 < cs) (fuel : ℕ) (atHead : Bool)
    (todo : List (WriteRequest β)) (h : w.Funded ∨ atHead = false ∧ w.Split todo) :
    (walk cs fuel atHead w todo).1 ≠ .pressure ∧
      ((walk cs fuel atHead w todo).2.2 = [] →
        (walk cs fuel atHead w todo).1 = .ended →
        (walk cs fuel atHead w todo).2.1.Funded) := by
  induction fuel generalizing w todo atHead with
  | zero =>
    refine ⟨by simp [walk], fun hnil _ => ?_⟩
    rcases h with hfunded | ⟨-, -, req, rest, hcons, -⟩
    · exact hfunded
    · rw [hcons] at hnil
      simp [walk] at hnil
  | succ fuel ih =>
    cases todo with
    | nil =>
      refine ⟨by simp [walk], fun _ _ => ?_⟩
      rcases h with hfunded | ⟨-, -, req, rest, hcons, -⟩
      · exact hfunded
      · simp at hcons
    | cons req rest =>
      have hround := round_funded hcs atHead h
      rw [walk]
      generalize round cs atHead w req rest = r at hround ⊢
      cases r with
      | next v todo => exact ih true todo (.inl hround)
      | again v todo =>
        exact ih false todo (hround.imp_right fun hsplit => ⟨rfl, hsplit⟩)
      | stop exit v todo =>
        obtain rfl : exit = .finished := hround
        exact ⟨by simp, fun _ hended => by simp at hended⟩

end Rounds

section Whole

variable {cs : ℕ} {raw f : SparseFile β} {q : Queue β}

theorem fillLast_funded (h : (q.startAfter []).Funded) : (q.fillLast cs).Funded := by
  rw [Queue.fillLast]
  split
  · exact h
  · split_ifs
    · next req _ _ =>
      exact (h.of_eq (v := ((q.startAfter q.requests.dropLast).promote
        (updateRequest cs q.bytes q.offset req).promoted).growTo
          (updateRequest cs q.bytes q.offset req).reached) rfl rfl).advance _
    · exact h.of_eq rfl rfl

/-- Behind the last request. -/
theorem append_finishes (hcs : 0 < cs) (hlast : q.lastOffset ≤ q.offset)
    (h : (q.startAfter []).Funded) (fuel : ℕ) :
    (writeRequests cs (fuel + 1) q).1 = .finished := by
  have hfilled : (q.fillLast cs).Funded := fillLast_funded h
  obtain ⟨hok, -⟩ := insertRequests_funded hcs none q.bytes.length hfilled
  rw [writeRequests, if_pos hlast]
  generalize insertRequests cs none q.bytes.length (q.fillLast cs) = r at hok ⊢
  obtain ⟨ok, v⟩ := r
  obtain rfl : ok = true := hok
  rfl

theorem clear_finishes (hcs : 0 < cs) (h : ListInv cs raw f q.requests q.fileSize)
    (hbytes : q.bytes ≠ []) (hclear : ¬Clobbers cs q.offset q.requests)
    (hfunded : (q.startAfter []).Funded) (fuel : ℕ) :
    (writeRequests cs (fuel + 2) q).1 = .finished := by
  by_cases hlast : q.lastOffset ≤ q.offset
  · exact append_finishes hcs hlast hfunded (fuel + 1)
  have hstart := ListInv.start (a := []) h hbytes (by simp) hclear
  obtain ⟨g, -, hresult⟩ := walk_spec hcs
    (q.requests.length + 2 * q.bytes.length + 2) true hstart (by simp) (by
      simp [Queue.startAfter])
  obtain ⟨hpressure, hended⟩ := walk_funded hcs
    (q.requests.length + 2 * q.bytes.length + 2) true q.requests (.inl hfunded)
  rw [writeRequests, if_neg hlast]
  generalize walk cs (q.requests.length + 2 * q.bytes.length + 2) true
    (q.startAfter []) q.requests = r at hresult hpressure hended ⊢
  obtain ⟨exit, v, todo⟩ := r
  cases exit with
  | finished => rfl
  | pressure => exact absurd rfl hpressure
  | ended =>
    rw [if_pos rfl] at hresult
    obtain ⟨htodo, hinv⟩ := hresult
    obtain rfl : todo = [] := htodo
    dsimp only
    split_ifs with hdone
    · rfl
    · exact append_finishes (q := .ofWalk v []) hcs (hinv.lastOffset_le hdone)
        ((hended rfl rfl).of_eq rfl rfl) fuel

/-- A write that finds more cache blocks than it has bytes is queued whole. -/
theorem writeRequests_finishes (hcs : 0 < cs)
    (h : ListInv cs raw f q.requests q.fileSize) (hbytes : q.bytes ≠ [])
    (hclean : ¬Garbles cs q) (hblocks : q.bytes.length < q.blocks) (fuel : ℕ) :
    (writeRequests cs (fuel + 3) q).1 = .finished := by
  by_cases hclobbers : Clobbers cs q.offset q.requests
  · obtain ⟨a, r, s, b, hsplit, hr, hs, hstop, hoffset, hroom⟩ := hclobbers
    have hmeets : Meets cs q a r s b := ⟨hsplit, hr, hs, hstop, hoffset, hroom⟩
    -- nothing is left behind the merged request, or the write is garbled
    have hlast : (mergeRequests cs r s).src.toList ++ b = [] := by
      by_contra hmore
      refine hclean ⟨by omega, a, r, s, b, hsplit, hr, hs, hstop, hoffset, hroom, ?_⟩
      by_contra hnone
      rw [not_or, not_not, not_lt] at hnone
      exact hmore (by simp [(hmeets.adjacent h).whole hnone.2, hnone.1])
    rw [hmeets.writeRequests_joins h hbytes hlast]
    exact clear_finishes hcs (hmeets.joined_list h hlast) hbytes
      (hmeets.joined_clear h) (.inr hblocks) fuel
  · exact clear_finishes hcs h hbytes hclobbers (.inr hblocks) (fuel + 1)

end Whole

end AuroraLtfs.Sched
