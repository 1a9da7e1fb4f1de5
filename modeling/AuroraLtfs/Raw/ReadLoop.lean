import AuroraLtfs.Index.Success
import AuroraLtfs.Raw.Access
import AuroraLtfs.Raw.Overlay

/-!
# The read loop

On a drive without errors the loop over the blocks of an extent copies exactly
the bytes the extent covers.  Its 64-bit variables may wrap below zero (an
extent can start in the middle of a block that begins before the file does);
what is copied does not depend on that.
-/

namespace AuroraLtfs.Raw

open AuroraLtfs.Tape
open AuroraLtfs.Index

variable {σ β : Type*}

section Arithmetic

theorem cast_u64 (n : ℤ) : (u64 n : ℤ) = n % 2 ^ 64 := by
  rw [u64, Int.toNat_of_nonneg (Int.emod_nonneg _ (by norm_num))]

theorem u64_of_bounds {n : ℤ} (hlo : 0 ≤ n) (hhi : n < 2 ^ 64) : (u64 n : ℤ) = n := by
  rw [cast_u64, Int.emod_eq_of_lt hlo hhi]

theorem u64_add (a b : ℤ) : u64 (u64 a + b) = u64 (a + b) := by
  rw [u64, cast_u64, Int.emod_add_emod, ← u64]

theorem u64_sub (a b : ℤ) : u64 (a - u64 b) = u64 (a - b) := by
  rw [u64, cast_u64, Int.sub_emod_emod, ← u64]

end Arithmetic

/-- The volume serves reads of medium `m`: the drive is without errors, and the
cached block is one of the blocks below the append positions. -/
structure Serves (m : Medium (List β)) (limit : Part → ℕ)
    (raw : RawVol σ β) : Prop where
  reliable : raw.vol.Reliable
  sane : raw.vol.device.Sane
  medium : raw.vol.device.medium = m
  appendEnd : raw.vol.device.appendEnd = limit
  lastBlock : ∀ p b, raw.lastPos = some (p, b) →
    b < limit p ∧ (m p)[b]? = some (.block raw.lastBlock)

/-- The buffer holds the bytes of `f` from `offset` on. -/
structure Filled (f : ℕ → β) (offset : ℕ) (c : Cursor σ β) : Prop where
  nextOff : c.nextOff = offset + c.out.length
  bytes : ∀ k, k < c.out.length → c.out[k]? = some (f (offset + k))

theorem Filled.append {f : ℕ → β} {offset : ℕ} {c next : Cursor σ β}
    (h : Filled f offset c) (bytes : List β)
    (hout : next.out = c.out ++ bytes)
    (hnextOff : next.nextOff = c.nextOff + bytes.length)
    (hbytes : ∀ j, j < bytes.length →
      bytes[j]? = some (f (c.nextOff + j))) : Filled f offset next := by
  constructor
  · rw [hnextOff, h.nextOff, hout, List.length_append, Nat.add_assoc]
  · intro k hk
    rw [hout, List.length_append] at hk
    rw [hout]
    by_cases hkept : k < c.out.length
    · rw [List.getElem?_append_left hkept, h.bytes k hkept]
    · rw [List.getElem?_append_right (not_lt.1 hkept), hbytes _ (by omega), h.nextOff]
      congr 2
      omega

section Device

variable {m : Medium (List β)} {limit : Part → ℕ}

/-- The device is where the loop takes it to be: behind the cached block if
that is the one to use, and at the block to read otherwise. -/
def Placed (e : Extent) (c : Cursor σ β) : Prop :=
  c.raw.vol.device.position =
    if cached e c then c.curpos else c.seekpos

/-- Moving the device keeps the medium and the cache. -/
theorem Serves.moved {raw : RawVol σ β} (h : Serves m limit raw) {next : Device (List β)}
    (hnext : next.Reliable) (hmedium : next.medium = raw.vol.device.medium)
    (happend : next.appendPos = raw.vol.device.appendPos) :
    Serves m limit { raw with vol := raw.vol.withDevice next } := by
  constructor
  · exact ⟨hnext, h.reliable.cache⟩
  · intro p
    rw [Volume.withDevice_device, hmedium, happend]
    exact h.sane p
  · exact hmedium.trans h.medium
  · rw [← h.appendEnd]
    funext p
    simp [Device.appendEnd, hmedium, happend]
  · exact h.lastBlock

/-- A block of the extent is fetched from the cache or from the tape, and then
it is the cached one and the device is behind it. -/
theorem fetchBlock_spec (bs blockbytes : ℕ) {b : ℕ} {e : Extent} (c : Cursor σ β)
    {data : List β} (hserves : Serves m limit c.raw) (hplaced : Placed e c)
    (hseekpos : c.seekpos = ⟨e.partition, b⟩)
    (hblock : (m e.partition)[b]? = some (.block data)) (hlimit : b < limit e.partition)
    (henough : blockbytes ≤ data.length) (hfits : data.length ≤ bs) :
    ∃ raw curpos, fetchBlock bs blockbytes e c =
        (.ok (), { c with raw := raw, curpos := curpos }) ∧
      Serves m limit raw ∧ raw.lastBlock = data ∧
      raw.lastPos = some (e.partition, b) ∧
      raw.vol.device.position = ⟨e.partition, b + 1⟩ := by
  rw [fetchBlock]
  by_cases hcached : cached e c = true
  · have hhit := hcached
    simp only [cached, hseekpos, decide_eq_true_eq] at hhit
    obtain ⟨hlast, hpartition, hbehind⟩ := hhit
    have hdata : c.raw.lastBlock = data := by
      have hheld := (hserves.lastBlock _ _ hlast).2
      rw [hblock] at hheld
      simpa using hheld.symm
    rw [if_pos hcached, if_neg (by rw [hdata]; omega)]
    refine ⟨c.raw, c.curpos, rfl, hserves, hdata, hlast, ?_⟩
    rw [hplaced, if_pos hcached]
    exact Position.ext hpartition.symm hbehind.symm
  · have hposition : c.raw.vol.device.position = ⟨e.partition, b⟩ := by
      rw [hplaced, if_neg hcached, hseekpos]
    have hhere : (c.raw.vol.device.medium
        c.raw.vol.device.position.partition)[
          c.raw.vol.device.position.block]? = some (.block data) := by
      rw [hposition, hserves.medium]
      exact hblock
    have hread := hserves.reliable.device.tapeRead hhere
    have hshort : ¬bs < data.length := not_lt.2 hfits
    have hlong : ¬data.length < blockbytes := not_lt.2 henough
    have hmoved := hserves.moved
      ((hserves.reliable.device.issue c.raw.vol.device.medium).moveTo
        ⟨e.partition, b + 1⟩) rfl rfl
    rw [if_neg hcached, readBlock, Cursor.onDevice, Volume.onDevice, hread, hposition]
    simp only [Outcome.within, Outcome.andThen_ok, Option.getD_some, hshort,
      hlong, if_false, Cursor.remember, hseekpos]
    refine ⟨_, _, rfl, ⟨hmoved.reliable, hmoved.sane, hmoved.medium,
      hmoved.appendEnd, ?_⟩, rfl, rfl, rfl⟩
    intro p k hlast
    simp only [Option.some.injEq, Prod.mk.injEq] at hlast
    obtain ⟨rfl, rfl⟩ := hlast
    exact ⟨hlimit, hblock⟩

end Device

section Blocks

variable [Zero β] {m : Medium (List β)} {limit : Part → ℕ} {bs : ℕ} {c : Cursor σ β}
  {f : ℕ → β} {e : Extent}

/-- The file offset of the first byte of the extent's block `k`, which lies
before the extent when that starts inside the block. -/
def blockStart (bs : ℕ) (e : Extent) (k : ℕ) : ℤ :=
  e.fileoffset - e.byteoffset + k * bs

theorem blockStart_succ (e : Extent) (k : ℕ) :
    blockStart bs e (k + 1) = blockStart bs e k + bs := by
  simp only [blockStart]
  push_cast
  ring

/-- The next byte to read is in block `k` of the extent, and the loop variables
say so. -/
structure OnBlock (bs : ℕ) (e : Extent) (k : ℕ) (c : Cursor σ β) : Prop where
  seekpos : c.seekpos = ⟨e.partition, e.block + k⟩
  firstbyte : c.firstbyte = u64 (blockStart bs e k)
  lastbyte : c.lastbyte = c.firstbyte
  start_le : blockStart bs e k ≤ c.nextOff
  lt_next : (c.nextOff : ℤ) < blockStart bs e k + bs
  fileoffset_le : e.fileoffset ≤ c.nextOff

/-- Where block `k` holds byte `i` of the file. -/
theorem block_offset (hbs : 0 < bs) {k i : ℕ} (hfrom : e.fileoffset ≤ i)
    (hlo : blockStart bs e k ≤ i) (hhi : (i : ℤ) < blockStart bs e k + bs) :
    (e.byteoffset + (i - e.fileoffset)) / bs = k ∧
      ((e.byteoffset + (i - e.fileoffset)) % bs : ℕ) =
        (i : ℤ) - blockStart bs e k := by
  have hin : ∃ r, r < bs ∧ e.byteoffset + (i - e.fileoffset) = r + bs * k ∧
      (r : ℤ) = i - blockStart bs e k := by
    refine ⟨(i - blockStart bs e k).toNat, ?_, ?_, ?_⟩ <;>
      simp only [blockStart] at hlo hhi ⊢
    · omega
    · zify [hfrom]
      rw [Int.toNat_of_nonneg (by omega)]
      ring
    · omega
  obtain ⟨r, hr, hoffset, hcast⟩ := hin
  rw [hoffset, Nat.add_mul_div_left _ _ hbs, Nat.div_eq_of_lt hr,
    Nat.add_mul_mod_self_left, Nat.mod_eq_of_lt hr]
  exact ⟨Nat.zero_add k, hcast⟩

omit [Zero β] in
/-- A good extent has its block `k` on the tape, as far as the extent goes. -/
theorem block_of_good (hbs : 0 < bs) (hgood : e.Good bs m limit) {k i : ℕ}
    (hfrom : e.fileoffset ≤ i) (hto : i < e.fileoffsetEnd) (hlo : blockStart bs e k ≤ i)
    (hhi : (i : ℤ) < blockStart bs e k + bs) :
    e.block + k < limit e.partition ∧ ∃ data,
      (m e.partition)[e.block + k]? = some (.block data) ∧
      data.length ≤ bs ∧ (i : ℤ) - blockStart bs e k < data.length := by
  obtain ⟨hdiv, hmod⟩ := block_offset hbs hfrom hlo hhi
  obtain ⟨hlimit, data, hdata, hlong, hshort⟩ := hgood.recorded i hfrom hto
  rw [hdiv] at hlimit hdata
  exact ⟨hlimit, data, hdata, hshort, by omega⟩

/-- The bytes of block `k` are the extent's. -/
theorem getElem?_block (hbs : 0 < bs) {k i : ℕ} {data : List β}
    (hdata : (m e.partition)[e.block + k]? = some (.block data)) (hfrom : e.fileoffset ≤ i)
    (hlo : blockStart bs e k ≤ i) (hhi : (i : ℤ) < blockStart bs e k + bs) {index : ℕ}
    (hindex : (index : ℤ) = i - blockStart bs e k) (hlong : index < data.length) :
    data[index]? = some ((segments bs m).get e i) := by
  obtain ⟨hdiv, hmod⟩ := block_offset hbs hfrom hlo hhi
  have hsame : (e.byteoffset + (i - e.fileoffset)) % bs = index := by omega
  simp only [segments, tapeByte, hdiv, hdata, hsame]
  rw [List.getElem?_eq_getElem hlong, List.getD_eq_getElem _ _ hlong]

omit [Zero β] in
/-- The last byte that a round of the loop takes from block `k`. -/
theorem lastbyte_spec (hgood : e.Good bs m limit) {k : ℕ} (hon : OnBlock bs e k c)
    (hmore : c.nextOff < e.fileoffsetEnd) {last : ℕ}
    (hlast : last = if e.fileoffsetEnd < u64 (c.lastbyte + bs) then e.fileoffsetEnd
      else u64 (c.lastbyte + bs)) :
    c.nextOff < last ∧ last ≤ e.fileoffsetEnd ∧
      (last : ℤ) ≤ blockStart bs e k + bs ∧
      (last = e.fileoffsetEnd ∨ (last : ℤ) = blockStart bs e k + bs) ∧
      (u64 (last - c.firstbyte) : ℤ) = last - blockStart bs e k ∧
      (u64 (c.nextOff - c.firstbyte) : ℤ) =
        c.nextOff - blockStart bs e k := by
  have hfits := hgood.fits
  have hlo := hon.start_le
  have hhi := hon.lt_next
  have hnext : (u64 (c.lastbyte + bs) : ℤ) = blockStart bs e k + bs := by
    rw [hon.lastbyte, hon.firstbyte, u64_add, u64_of_bounds (by omega) (by omega)]
  have hbounds : c.nextOff < last ∧ last ≤ e.fileoffsetEnd ∧
      (last : ℤ) ≤ blockStart bs e k + bs ∧
      (last = e.fileoffsetEnd ∨ (last : ℤ) = blockStart bs e k + bs) := by
    split_ifs at hlast <;> omega
  obtain ⟨hmoves, hend, hblock, hwhich⟩ := hbounds
  refine ⟨hmoves, hend, hblock, hwhich, ?_, ?_⟩
  · rw [hon.firstbyte, u64_sub, u64_of_bounds (by omega) (by omega)]
  · rw [hon.firstbyte, u64_sub, u64_of_bounds (by omega) (by omega)]

omit [Zero β] in
/-- Copying up to the end of block `k` leads to block `k + 1`. -/
theorem onBlock_advance (hbs : 0 < bs) {k ncopy : ℕ}
    (hseekpos : c.seekpos = ⟨e.partition, e.block + k⟩)
    (hfirst : c.firstbyte = u64 (blockStart bs e k))
    (hlast : (c.lastbyte : ℤ) = blockStart bs e k + bs) (hrange : c.lastbyte < 2 ^ 64)
    (hcopied : c.nextOff + ncopy = c.lastbyte) (hfrom : e.fileoffset ≤ c.nextOff) :
    OnBlock bs e (k + 1) (c.advance bs ncopy) := by
  have hnext : (u64 (blockStart bs e k + bs) : ℤ) = c.lastbyte := by
    rw [u64_of_bounds (by omega) (by omega), hlast]
  constructor
  · simp [Cursor.advance, hseekpos, Nat.add_assoc]
  · simp only [Cursor.advance, hfirst, u64_add, blockStart_succ]
  · simp only [Cursor.advance, hfirst, u64_add]
    omega
  · simp only [Cursor.advance, blockStart_succ]
    omega
  · simp only [Cursor.advance, blockStart_succ]
    omega
  · simp only [Cursor.advance]
    omega

section Rounds

variable (hbs : 0 < bs) (hgood : e.Good bs m limit)
  (hf : ∀ i, e.fileoffset ≤ i → i < e.fileoffsetEnd → f i = (segments bs m).get e i)

include hbs hgood hf

/-- A round of the loop copies the rest of a block, as far as the extent and
the request go, and then stands at the next block. -/
theorem readBlocks_round {offset : ℕ} (count fuel : ℕ) {k : ℕ}
    (hserves : Serves m limit c.raw) (hplaced : Placed e c) (hfilled : Filled f offset c)
    (hon : OnBlock bs e k c) (hmore : c.nextOff < e.fileoffsetEnd)
    (hroom : c.out.length < count) :
    ∃ next, readBlocks bs count (offset + count) e (fuel + 1) c =
        readBlocks bs count (offset + count) e fuel next ∧
      Serves m limit next.raw ∧ Placed e next ∧ Filled f offset next ∧
      c.nextOff < next.nextOff ∧
      next.nextOff ≤ min (offset + count) e.fileoffsetEnd ∧
      (next.nextOff < min (offset + count) e.fileoffsetEnd →
        OnBlock bs e (k + 1) next) := by
  obtain ⟨last, hlast⟩ : ∃ last, last =
    if e.fileoffsetEnd < u64 (c.lastbyte + bs) then e.fileoffsetEnd
      else u64 (c.lastbyte + bs) := ⟨_, rfl⟩
  obtain ⟨hmoves, hend, hblock, hwhich, hbytes, hstart⟩ :=
    lastbyte_spec hgood hon hmore hlast
  have hlo := hon.start_le
  have hhi := hon.lt_next
  have hfrom := hon.fileoffset_le
  have hnextOff := hfilled.nextOff
  -- the block is long enough up to the last byte that is taken from it
  obtain ⟨hlimit, data, hdata, hshort, hlong⟩ := block_of_good hbs hgood
    (i := last - 1) (k := k) (by omega) (by omega) (by omega) (by omega)
  obtain ⟨raw, curpos, hfetch, hraw, hheld, hlastPos, hbehind⟩ :=
    fetchBlock_spec bs (u64 (last - c.firstbyte)) { c with lastbyte := last }
      hserves hplaced hon.seekpos hdata hlimit (by omega) hshort
  have hstep : readBlocks bs count (offset + count) e (fuel + 1) c =
      readBlocks bs count (offset + count) e fuel
        (({ c with raw := raw, curpos := curpos, lastbyte := last } :
          Cursor σ β).advance bs
            ((if offset + count < last then offset + count else last) -
              c.nextOff)) := by
    simp only [readBlocks, hmore, hroom, and_self, if_true, ← hlast, hfetch,
      Outcome.andThen_ok]
  obtain ⟨ncopy, hncopy⟩ : ∃ ncopy, ncopy =
    (if offset + count < last then offset + count else last) - c.nextOff :=
      ⟨_, rfl⟩
  rw [← hncopy] at hstep
  refine ⟨_, hstep, hraw, ?_, ?_, ?_, ?_, ?_⟩
  · have hmiss : cached e (({ c with
        raw := raw, curpos := curpos, lastbyte := last } :
          Cursor σ β).advance bs ncopy) = false := by
      simp [cached, Cursor.advance, hlastPos, hon.seekpos]
    rw [Placed, hmiss, if_neg (by simp)]
    simp [Cursor.advance, hbehind, hon.seekpos, Nat.add_assoc]
  · have htaken : ((data.drop (u64 (c.nextOff - c.firstbyte))).take
        ncopy).length = ncopy := by
      rw [List.length_take, List.length_drop]
      split_ifs at hncopy <;> omega
    apply hfilled.append ((data.drop (u64 (c.nextOff - c.firstbyte))).take ncopy)
    · simp [Cursor.advance, hheld]
    · simp [Cursor.advance, htaken]
    · intro j hj
      rw [htaken] at hj
      have hin : c.nextOff + j < last := by split_ifs at hncopy <;> omega
      rw [List.getElem?_take_of_lt hj, List.getElem?_drop, hf _ (by omega) (by omega)]
      apply getElem?_block hbs hdata <;> omega
  · simp only [Cursor.advance]
    split_ifs at hncopy <;> omega
  · simp only [Cursor.advance]
    split_ifs at hncopy <;> omega
  · intro hgoes
    simp only [Cursor.advance] at hgoes
    have hfull : c.nextOff + ncopy = last ∧ (last : ℤ) = blockStart bs e k + bs := by
      split_ifs at hncopy <;> omega
    have hrange : last < 2 ^ 64 := by
      have hfits := hgood.fits
      omega
    exact onBlock_advance hbs hon.seekpos hon.firstbyte hfull.2 hrange hfull.1 hfrom

/-- The loop reads up to the end of the extent or of the request. -/
theorem readBlocks_spec {offset count : ℕ} (fuel : ℕ) {k : ℕ}
    (hserves : Serves m limit c.raw) (hplaced : Placed e c) (hfilled : Filled f offset c)
    (hin : c.nextOff ≤ min (offset + count) e.fileoffsetEnd)
    (hon : c.nextOff < min (offset + count) e.fileoffsetEnd → OnBlock bs e k c)
    (hfuel : offset + count ≤ c.nextOff + fuel) :
    ∃ next, readBlocks bs count (offset + count) e fuel c = (.ok (), next) ∧
      Serves m limit next.raw ∧ Filled f offset next ∧
      next.nextOff = min (offset + count) e.fileoffsetEnd := by
  induction fuel generalizing k c with
  | zero => exact ⟨c, rfl, hserves, hfilled, by omega⟩
  | succ fuel ih =>
    have hnextOff := hfilled.nextOff
    by_cases hmore : c.nextOff < min (offset + count) e.fileoffsetEnd
    · obtain ⟨next, hround, hnserves, hnplaced, hnfilled, hmoves, hnin,
        hnon⟩ := readBlocks_round hbs hgood hf count fuel hserves hplaced
          hfilled (hon hmore) (by omega) (by omega)
      rw [hround]
      exact ih hnserves hnplaced hnfilled hnin hnon (by omega)
    · have hstop : ¬(c.nextOff < e.fileoffsetEnd ∧ c.out.length < count) := by
        omega
      rw [readBlocks, if_neg hstop]
      exact ⟨c, rfl, hserves, hfilled, by omega⟩

end Rounds

omit [Zero β] in
/-- The loop variables before the first block of an extent. -/
theorem enterExtent_onBlock (hbs : 0 < bs) (hfrom : e.fileoffset ≤ c.nextOff) :
    OnBlock bs e ((c.nextOff - e.fileoffset + e.byteoffset) / bs)
      (enterExtent bs e c) := by
  obtain ⟨x, hx⟩ : ∃ x, x = c.nextOff - e.fileoffset + e.byteoffset := ⟨_, rfl⟩
  have hdiv : bs * (x / bs) + x % bs = x := Nat.div_add_mod x bs
  have hmod : x % bs < bs := Nat.mod_lt x hbs
  have hcast : ((x / bs : ℕ) : ℤ) * bs = (bs * (x / bs) : ℕ) := by
    push_cast
    ring
  constructor
  · rfl
  · simp only [enterExtent, seekTarget, blockStart]
    push_cast
    ring_nf
  · rfl
  · simp only [enterExtent, blockStart, ← hx, hcast]
    omega
  · simp only [enterExtent, blockStart, ← hx, hcast]
    omega
  · exact hfrom

omit [Zero β] in
/-- The seek before the first block is left out only where the loop does not
need it. -/
theorem seek_placed (hserves : Serves m limit c.raw) {b : ℕ}
    (hcurpos : c.curpos = c.raw.vol.device.position)
    (hseekpos : c.seekpos = ⟨e.partition, b⟩) (hlimit : b < limit e.partition) :
    ∃ raw, (if needsSeek e c.seekpos c.raw then
          c.onDevice (tapeSeek c.seekpos.partition (.block c.seekpos.block))
        else (.ok (), c)) = (.ok (), { c with raw := raw }) ∧
      Serves m limit raw ∧ Placed e { c with raw := raw } := by
  by_cases hseek : needsSeek e c.seekpos c.raw = true
  · have hrecorded : b ≤ (c.raw.vol.device.medium e.partition).length := by
      rw [← hserves.appendEnd] at hlimit
      exact hlimit.le.trans (Device.appendEnd_le_length hserves.sane _)
    obtain ⟨next, hnext, hreliable⟩ := hserves.reliable.device.tapeSeek
      e.partition (.block b) (by rintro n ⟨⟩; exact hrecorded)
    obtain ⟨hmedium, happend⟩ := tapeSeek_frame e.partition (.block b) c.raw.vol.device
    rw [hnext] at hmedium happend
    refine ⟨{ c.raw with vol := c.raw.vol.withDevice next }, ?_,
      hserves.moved hreliable hmedium happend, ?_⟩
    · have hlocate : tapeSeek c.seekpos.partition (.block c.seekpos.block)
          c.raw.vol.device = (.ok (), next) := by
        rw [hseekpos]
        exact hnext
      rw [if_pos hseek, Cursor.onDevice, Volume.onDevice, hlocate]
      rfl
    · have hmiss : cached e { c with
          raw := { c.raw with vol := c.raw.vol.withDevice next } } = false := by
        simp only [needsSeek, decide_eq_true_eq] at hseek
        simp only [cached, hcurpos, decide_eq_false_iff_not]
        grind
      rw [Placed, hmiss, if_neg (by simp)]
      exact ((tapeSeek_eq_ok hnext).1 b rfl).trans hseekpos.symm
  · refine ⟨c.raw, by rw [if_neg hseek], hserves, ?_⟩
    by_cases hcached : cached e c = true
    · rw [Placed, if_pos hcached, hcurpos]
    · rw [Placed, if_neg hcached]
      simp only [needsSeek, decide_eq_true_eq] at hseek
      simp only [cached, hcurpos, decide_eq_true_eq] at hcached
      grind

/-- The needed bytes of one extent are read. -/
theorem readExtent_spec (hbs : 0 < bs) (hgood : e.Good bs m limit)
    (hf : ∀ i, e.fileoffset ≤ i → i < e.fileoffsetEnd → f i = (segments bs m).get e i)
    {offset count : ℕ} (hserves : Serves m limit c.raw) (hfilled : Filled f offset c)
    (hfrom : e.fileoffset ≤ c.nextOff) (hmore : c.nextOff < e.fileoffsetEnd)
    (hin : c.nextOff ≤ offset + count) :
    ∃ next, readExtent bs count (offset + count) e c = (.ok (), next) ∧
      Serves m limit next.raw ∧ Filled f offset next ∧
      next.nextOff = min (offset + count) e.fileoffsetEnd := by
  have hon := enterExtent_onBlock hbs hfrom
  have hnextOff := hfilled.nextOff
  obtain ⟨hlimit, -⟩ := block_of_good hbs hgood hfrom hmore hon.start_le hon.lt_next
  obtain ⟨raw, hseek, hraw, hplaced⟩ := seek_placed
    (c := enterExtent bs e c) hserves rfl hon.seekpos hlimit
  simp only [readExtent, hseek, Outcome.andThen_ok]
  apply readBlocks_spec hbs hgood hf count hraw hplaced
  · exact ⟨hfilled.nextOff, hfilled.bytes⟩
  · exact le_min hin hmore.le
  · exact fun _ => ⟨hon.seekpos, hon.firstbyte, hon.lastbyte, hon.start_le,
      hon.lt_next, hon.fileoffset_le⟩
  · simp only [enterExtent]
    omega

end Blocks

section Extents

variable [Zero β] {m : Medium (List β)} {limit : Part → ℕ} {bs : ℕ} {c : Cursor σ β}

/-- Zeros fill a hole of the file. -/
theorem Filled.fill {f : ℕ → β} {offset : ℕ} (h : Filled f offset c) (n : ℕ)
    (hhole : ∀ i, c.nextOff ≤ i → i < c.nextOff + n → f i = 0) :
    Filled f offset (c.fill n) := by
  apply h.append (List.replicate n 0) rfl (by simp [Cursor.fill])
  intro j hj
  rw [List.length_replicate] at hj
  rw [hhole _ (by omega) (by omega), List.getElem?_replicate, if_pos hj]

theorem readExtents_full (bs : ℕ) {count : ℕ} (lastOff : ℕ) (es : List Extent)
    (h : c.out.length = count) : readExtents bs count lastOff es c = (.ok (), c) := by
  cases es with
  | nil => rfl
  | cons e es => rw [readExtents, if_pos h]

/-- The walk reads the extents and fills the holes before and between them.
It ends at the end of the request, or behind the last extent. -/
theorem readExtents_spec (hbs : 0 < bs) (f : ℕ → β) (offset count size : ℕ)
    (es : List Extent) (hordered : (segments bs m).Ordered es)
    (hgood : ∀ e ∈ es, e.Good bs m limit) (hends : ∀ e ∈ es, e.fileoffsetEnd ≤ size)
    (hf : ∀ e ∈ es, ∀ i, e.fileoffset ≤ i → i < e.fileoffsetEnd → f i = (segments bs m).get e i)
    (hserves : Serves m limit c.raw) (hfilled : Filled f offset c)
    (hin : c.nextOff ≤ min (offset + count) (max offset size))
    (hhole : ∀ i, c.nextOff ≤ i → (∀ e ∈ es, i < e.fileoffset ∨ e.fileoffsetEnd ≤ i) → f i = 0) :
    ∃ next, readExtents bs count (offset + count) es c = (.ok (), next) ∧
      Serves m limit next.raw ∧ Filled f offset next ∧
      next.nextOff ≤ min (offset + count) (max offset size) ∧
      (next.nextOff < offset + count →
        ∀ i, next.nextOff ≤ i → f i = 0) := by
  induction es generalizing c with
  | nil => exact ⟨c, rfl, hserves, hfilled, hin, fun _ i hi =>
    hhole i hi (by simp)⟩
  | cons e es ih =>
    have hnextOff := hfilled.nextOff
    have hsize := hends e (by simp)
    have hpositive := (hgood e (by simp)).bytecount
    have hend : e.fileoffsetEnd = e.fileoffset + e.bytecount := rfl
    obtain ⟨hbehind, hes⟩ := (Segments.ordered_cons _).1 hordered
    -- no extent covers the bytes before this one
    have hbefore : ∀ i, c.nextOff ≤ i → i < e.fileoffset → f i = 0 := by
      intro i hi hlt
      apply hhole i hi
      intro x hx
      cases List.mem_cons.1 hx with
      | inl hx => exact .inl (hx ▸ hlt)
      | inr hx =>
        have hle : e.fileoffsetEnd ≤ x.fileoffset := hbehind x hx
        exact .inl (by omega)
    by_cases hfull : c.out.length = count
    · rw [readExtents_full bs _ _ hfull]
      exact ⟨c, rfl, hserves, hfilled, hin, fun h => by omega⟩
    by_cases hpast : c.nextOff < e.fileoffset ∧ offset + count < e.fileoffset
    · rw [readExtents, if_neg hfull, if_pos hpast]
      have hnext : (c.fill (offset + count - c.nextOff)).nextOff = offset + count := by
        simp only [Cursor.fill]
        omega
      exact ⟨_, rfl, hserves, hfilled.fill _ fun i hi hlt =>
        hbefore i hi (by omega), by omega, fun h => by omega⟩
    obtain ⟨mid, hmid⟩ : ∃ mid, mid = c.fill (e.fileoffset - c.nextOff) := ⟨_, rfl⟩
    have hmidOff : mid.nextOff = max c.nextOff e.fileoffset := by
      simp only [hmid, Cursor.fill]
      omega
    have hmidServes : Serves m limit mid.raw := hmid ▸ hserves
    have hmidFilled : Filled f offset mid := hmid ▸ hfilled.fill _
      fun i hi hlt => hbefore i hi (by omega)
    -- behind this extent only the others matter
    have hrest : ∀ next : Cursor σ β, Serves m limit next.raw →
        Filled f offset next → e.fileoffsetEnd ≤ next.nextOff →
        c.nextOff ≤ next.nextOff →
        next.nextOff ≤ min (offset + count) (max offset size) → _ :=
      fun next hnserves hnfilled hdone hlater hnin =>
        ih hes (fun x hx => hgood x (by simp [hx]))
          (fun x hx => hends x (by simp [hx]))
          (fun x hx => hf x (by simp [hx])) hnserves hnfilled hnin
          fun i hi hcovers => hhole i (hlater.trans hi) fun x hx =>
            (List.mem_cons.1 hx).elim
              (fun hx => .inr (hx ▸ hdone.trans hi)) (hcovers x)
    rw [readExtents, if_neg hfull, if_neg hpast]
    simp only [← hmid]
    by_cases hmore : mid.nextOff < e.fileoffsetEnd
    · rw [if_pos hmore]
      obtain ⟨next, hread, hnserves, hnfilled, hnext⟩ := readExtent_spec hbs
        (hgood e (by simp)) (hf e (by simp)) hmidServes hmidFilled
          (by omega) hmore (show mid.nextOff ≤ offset + count by omega)
      rw [hread, Outcome.andThen_ok]
      by_cases hall : next.out.length = count
      · have hnextOff' := hnfilled.nextOff
        rw [readExtents_full bs _ _ hall]
        exact ⟨next, rfl, hnserves, hnfilled, by omega, fun h => by omega⟩
      · have hnextOff' := hnfilled.nextOff
        exact hrest next hnserves hnfilled (by omega) (by omega) (by omega)
    · rw [if_neg hmore]
      exact hrest mid hmidServes hmidFilled (by omega) (by omega) (by omega)

end Extents

end AuroraLtfs.Raw
