import AuroraLtfs.Raw.Overlay
import AuroraLtfs.Raw.Write

/-!
# The file a dentry stands for

A dentry whose extents are in order, recorded below the append positions and
within the file size stands for a byte file.  Laying an extent over it is a
write, cutting its extents is a truncation, and what the tape gains beyond the
append positions does not change it.
-/

namespace AuroraLtfs.Raw

open AuroraLtfs.Tape
open AuroraLtfs.Index

variable {σ β : Type*} [Zero β] {bytes : List β} {p : Part} {e ext : Extent}

/-- The extent invariant of a dentry. -/
structure Dentry.Valid (bs : ℕ) (m : Medium (List β)) (limit : Part → ℕ)
    (d : Dentry) : Prop where
  ordered : (segments bs m).Ordered d.extents
  good : ∀ e ∈ d.extents, e.Good bs m limit
  ends : ∀ e ∈ d.extents, e.fileoffsetEnd ≤ d.size

/-- The bytes of the file: those of the extent that covers an offset, and zero
where none does. -/
def contents (bs : ℕ) (m : Medium (List β)) (d : Dentry) : ByteFile β where
  size := d.size
  byte i := if i < d.size then ((segments bs m).lookup d.extents i).getD 0
    else 0
  byte_past := by
    intro i hi
    rw [if_neg (not_lt.2 hi)]

/-- The same, with a hole where no extent covers an offset. -/
def cells (bs : ℕ) (m : Medium (List β)) (d : Dentry) : SparseFile β where
  size := d.size
  byte i := if i < d.size then (segments bs m).lookup d.extents i else none
  byte_past := by
    intro i hi
    rw [if_neg (not_lt.2 hi)]
    rfl

section Dentry

variable {bs : ℕ} {m : Medium (List β)} {limit : Part → ℕ} {d : Dentry}

theorem contents_eq (bs : ℕ) (m : Medium (List β)) (d : Dentry) :
    contents bs m d = (cells bs m d).fill := by
  refine ByteFile.ext rfl ?_
  funext i
  simp only [contents, cells, ByteFile.fill]
  split_ifs <;> rfl

/-- Past the file size no extent covers anything. -/
theorem cells_byte (hd : d.Valid bs m limit) (i : ℕ) :
    (cells bs m d).byte i = (segments bs m).lookup d.extents i := by
  simp only [cells]
  split_ifs with hsize
  · rfl
  · rw [Segments.lookup_eq_none]
    intro e he
    exact .inr ((hd.ends e he).trans (not_lt.1 hsize))

/-- The last byte of an extent that comes out of the walk was covered by `ext`
or by an extent of the file. -/
theorem walk_end_le {after : List Extent} (hwalk : WalkSpec bs m limit ext d.extents after)
    (hd : d.Valid bs m limit) (he : e ∈ after) :
    e.fileoffsetEnd ≤ max d.size ext.fileoffsetEnd := by
  have hpositive := (hwalk.good e he).bytecount
  have hend : e.fileoffsetEnd = e.fileoffset + e.bytecount := rfl
  have hlast := Segments.lookup_of_mem _ hwalk.ordered he
    (show e.fileoffset ≤ e.fileoffsetEnd - 1 by omega)
    (show e.fileoffsetEnd - 1 < e.fileoffsetEnd by omega)
  rw [hwalk.lookup] at hlast
  split_ifs at hlast with hcovers
  · omega
  · obtain ⟨old, hold, -, hhi, -⟩ := Segments.exists_of_lookup _ hlast
    have hsize := hd.ends old hold
    have hlt : e.fileoffsetEnd - 1 < old.fileoffsetEnd := hhi
    omega

/-- Laying a good extent over a file writes its bytes. -/
theorem addExtent_spec (hbs : 0 < bs) (hd : d.Valid bs m limit) (hext : ext.Good bs m limit)
    (hcount : ext.bytecount = bytes.length)
    (hbytes : ∀ j, j < bytes.length → bytes[j]? =
      some ((segments bs m).get ext (ext.fileoffset + j))) :
    (addExtent bs ext d).Valid bs m limit ∧
      cells bs m (addExtent bs ext d) =
        (cells bs m d).put ext.fileoffset bytes := by
  have hwalk := addWalk_spec hbs hext d.extents.reverse [] d.realsize
    (by simpa using hd.ordered) (by simpa using hd.good) (by simp)
  simp only [List.reverse_reverse, List.append_nil] at hwalk
  have hsize : (addExtent bs ext d).size = max d.size ext.fileoffsetEnd := by
    simp only [addExtent]
    split_ifs <;> omega
  have hends : ∀ e ∈ (addExtent bs ext d).extents,
      e.fileoffsetEnd ≤ (addExtent bs ext d).size :=
    fun e he => hsize ▸ walk_end_le hwalk hd he
  have hvalid : (addExtent bs ext d).Valid bs m limit := ⟨hwalk.ordered, hwalk.good, hends⟩
  refine ⟨hvalid, ?_⟩
  have hpositive := hext.bytecount
  have hnonempty : bytes ≠ [] := List.length_pos_iff.1 (by omega)
  have hend : ext.fileoffsetEnd = ext.fileoffset + bytes.length := by
    rw [Extent.fileoffsetEnd, hcount]
  apply ByteFile.ext
  · rw [ByteFile.put_size, if_neg hnonempty]
    exact hsize.trans (by rw [hend]; rfl)
  · funext i
    rw [cells_byte hvalid, ByteFile.put_byte, cells_byte hd,
      show (addExtent bs ext d).extents =
        (addWalk bs ext d.extents.reverse [] d.realsize).1 from rfl,
      hwalk.lookup i, hend]
    split_ifs with hcovers
    · rw [hbytes (i - ext.fileoffset) (by omega), Nat.add_sub_cancel' hcovers.1]
    · rfl

/-- Cutting the extents truncates the file. -/
theorem ltfsFsrawTruncate_spec (hd : d.Valid bs m limit) (length : ℕ) :
    (ltfsFsrawTruncate length d).Valid bs m limit ∧
      cells bs m (ltfsFsrawTruncate length d) = (cells bs m d).truncate length := by
  by_cases hshorter : length < d.size
  · obtain ⟨hordered, hgood, hlookup⟩ := truncateWalk_spec length
      d.extents.reverse d.realsize (by simpa using hd.ordered)
      (by simpa using hd.good)
    have hextents : (ltfsFsrawTruncate length d).extents =
        (truncateWalk length d.extents.reverse d.realsize).1 := by
      simp [ltfsFsrawTruncate, hshorter]
    have hvalid : (ltfsFsrawTruncate length d).Valid bs m limit := by
      constructor
      · rw [hextents]
        exact hordered
      · intro e he
        rw [hextents] at he
        exact (hgood e he).1
      · intro e he
        rw [hextents] at he
        exact (hgood e he).2
    refine ⟨hvalid, ByteFile.ext rfl ?_⟩
    funext i
    rw [cells_byte hvalid]
    simp only [ByteFile.truncate, cells_byte hd]
    rw [hextents, hlookup, List.reverse_reverse]
    rfl
  · have hextents : (ltfsFsrawTruncate length d).extents = d.extents := by
      simp [ltfsFsrawTruncate, hshorter]
    have hvalid : (ltfsFsrawTruncate length d).Valid bs m limit := by
      constructor
      · rw [hextents]
        exact hd.ordered
      · rw [hextents]
        exact hd.good
      · intro e he
        rw [hextents] at he
        exact (hd.ends e he).trans (not_lt.1 hshorter)
    refine ⟨hvalid, ByteFile.ext rfl ?_⟩
    funext i
    rw [cells_byte hvalid, hextents, ← cells_byte hd]
    simp only [ByteFile.truncate]
    split_ifs with hi
    · rfl
    · exact (cells bs m d).byte_past i (show d.size ≤ i by omega)

end Dentry

section Tape

variable {bs : ℕ} {d : Dentry} {dev next : Device (List β)}

omit [Zero β] in
theorem Recorded.grows (hgrows : dev.Grows next) {block k : ℕ}
    (h : Recorded bs dev.medium dev.appendEnd p block k) :
    Recorded bs next.medium next.appendEnd p block k := by
  obtain ⟨hlimit, data, hdata, hbounds⟩ := h
  exact ⟨hlimit.trans_le (hgrows.appendEnd_le p), data,
    (hgrows.kept p _ hlimit).trans hdata, hbounds⟩

omit [Zero β] in
theorem Extent.Good.grows (hgrows : dev.Grows next) (h : e.Good bs dev.medium dev.appendEnd) :
    e.Good bs next.medium next.appendEnd :=
  ⟨h.bytecount, h.byteoffset, h.fits,
    fun i hlo hhi => (h.recorded i hlo hhi).grows hgrows⟩

/-- The bytes of a recorded extent stay what they are. -/
theorem get_grows (hgrows : dev.Grows next) (h : e.Good bs dev.medium dev.appendEnd) {i : ℕ}
    (hlo : e.fileoffset ≤ i) (hhi : i < e.fileoffsetEnd) :
    (segments bs next.medium).get e i = (segments bs dev.medium).get e i := by
  simp only [segments, tapeByte]
  rw [hgrows.kept _ _ (h.recorded i hlo hhi).1]

/-- What the tape gains beyond the append positions does not change a file. -/
theorem Dentry.Valid.grows (hgrows : dev.Grows next)
    (h : d.Valid bs dev.medium dev.appendEnd) :
    d.Valid bs next.medium next.appendEnd ∧
      cells bs next.medium d = cells bs dev.medium d := by
  have hvalid : d.Valid bs next.medium next.appendEnd :=
    ⟨h.ordered, fun e he => (h.good e he).grows hgrows, h.ends⟩
  refine ⟨hvalid, ByteFile.ext rfl ?_⟩
  funext i
  rw [cells_byte hvalid, cells_byte h]
  apply Segments.lookup_congr
  intro e he
  exact ⟨rfl, rfl, fun hlo hhi => get_grows hgrows (h.good e he) hlo hhi⟩

omit [Zero β] in
/-- The block that holds byte `j` of the buffer. -/
theorem Holds.block {start : ℕ} (h : Holds bs p start bytes dev) (hbs : 0 < bs) {j : ℕ}
    (hj : j < bytes.length) :
    start + j / bs < dev.appendEnd p ∧ ∃ data,
      (dev.medium p)[start + j / bs]? = some (.block data) ∧
      j % bs < data.length ∧ data.length ≤ bs ∧ data[j % bs]? = bytes[j]? := by
  have hdiv : bs * (j / bs) + j % bs = j := Nat.div_add_mod j bs
  have hmod : j % bs < bs := Nat.mod_lt j hbs
  have hcomm : j / bs * bs = bs * (j / bs) := Nat.mul_comm _ _
  obtain ⟨hend, hblock⟩ := h (j / bs) (by omega)
  refine ⟨hend, _, hblock, ?_, ?_, ?_⟩
  · rw [List.length_take, List.length_drop]
    omega
  · rw [List.length_take]
    exact min_le_left _ _
  · rw [List.getElem?_take_of_lt hmod, List.getElem?_drop, hcomm, hdiv]

omit [Zero β] in
theorem Holds.good {start offset : ℕ} (h : Holds bs p start bytes dev) (hbs : 0 < bs)
    (hnonempty : bytes ≠ []) (hfits : offset + bytes.length + bs ≤ 2 ^ 64) :
    (writtenExtent p start offset bytes).Good bs dev.medium
      dev.appendEnd := by
  refine ⟨List.length_pos_iff.2 hnonempty, hbs, hfits, ?_⟩
  intro i hlo hhi
  simp only [writtenExtent, Extent.fileoffsetEnd] at hlo hhi ⊢
  obtain ⟨hend, data, hdata, hlong, hshort, -⟩ := h.block hbs (j := i - offset) (by omega)
  rw [Nat.zero_add]
  exact ⟨hend, data, hdata, hlong, hshort⟩

/-- Read through the tape, the extent has the bytes of the buffer. -/
theorem Holds.get {start offset : ℕ} (h : Holds bs p start bytes dev) (hbs : 0 < bs) {j : ℕ}
    (hj : j < bytes.length) :
    bytes[j]? = some ((segments bs dev.medium).get
      (writtenExtent p start offset bytes) (offset + j)) := by
  obtain ⟨-, data, hdata, hlong, -, hbyte⟩ := h.block hbs hj
  simp only [segments, tapeByte, writtenExtent, Nat.add_sub_cancel_left,
    Nat.zero_add, hdata]
  rw [← hbyte, List.getElem?_eq_getElem hlong, List.getD_eq_getElem _ _ hlong]

end Tape

end AuroraLtfs.Raw
