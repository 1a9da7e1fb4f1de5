import AuroraLtfs.Lib.Scanf
import AuroraLtfs.Time.Convert

/-!
# Times of the index

`xml_format_time` writes a time of the index and `xml_parse_time` reads one.  The writer
moves times outside the years 0000 to 9999 to the end of that range and says so; a
number of nanoseconds is written as it is.
-/

namespace AuroraLtfs.Time

open Gregorian Scanf

/-- `struct ltfs_timespec` -/
structure Timespec where
  sec : ℤ
  nsec : ℤ
  deriving DecidableEq

def ltfsTimeTMax : ℤ := 253402300799

def ltfsTimeTMin : ℤ := -62167219200

def ltfsNsecMax : ℤ := 999999999

def ltfsNsecMin : ℤ := 0

def ltfsTimeOutOfRange : ℕ := 1

def normalizeLtfsTime (t : Timespec) : Timespec × ℕ :=
  if ltfsTimeTMax < t.sec then (⟨ltfsTimeTMax, ltfsNsecMax⟩, ltfsTimeOutOfRange)
  else if t.sec < ltfsTimeTMin then (⟨ltfsTimeTMin, ltfsNsecMin⟩, ltfsTimeOutOfRange)
  else (t, 0)

/-- The seven numbers of the text -/
structure TimeFields where
  year : List Char
  mon : List Char
  mday : List Char
  hour : List Char
  min : List Char
  sec : List Char
  nsec : List Char

def TimeFields.text (f : TimeFields) : List Char :=
  f.year ++ '-' :: (f.mon ++ '-' :: (f.mday ++ 'T' :: (f.hour ++ ':' :: (f.min ++ ':' ::
    (f.sec ++ '.' :: (f.nsec ++ ['Z']))))))

/-- The conversions of `snprintf` -/
def timeFields (tm : Tm) (nsec : ℤ) : TimeFields where
  year := format 4 (tm.year + 1900)
  mon := format 2 (tm.mon + 1)
  mday := format 2 tm.mday
  hour := format 2 tm.hour
  min := format 2 tm.min
  sec := format 2 tm.sec
  nsec := format 9 nsec

/-- The text, and what `normalize_ltfs_time` returned. -/
def xmlFormatTime (t : Timespec) : List Char × ℕ :=
  let (t, normalized) := normalizeLtfsTime t
  ((timeFields (ltfsGmtime t.sec) t.nsec).text, normalized)

/-- The seven conversions of `sscanf`; the text after them is not looked at. -/
def scanTime (text : List Char) : Option (Tm × ℤ) := do
  let (year, text) ← scan text.length text
  let text ← literal '-' text
  let (mon, text) ← scan 2 text
  let text ← literal '-' text
  let (mday, text) ← scan 2 text
  let text ← literal 'T' text
  let (hour, text) ← scan 2 text
  let text ← literal ':' text
  let (min, text) ← scan 2 text
  let text ← literal ':' text
  let (sec, text) ← scan 2 text
  let text ← literal '.' text
  let (nsec, _) ← scan 9 text
  some (⟨year - 1900, mon - 1, mday, hour, min, sec⟩, nsec)

/-- The time, and what `normalize_ltfs_time` returned. -/
def xmlParseTime (text : List Char) : Option (Timespec × ℕ) := do
  let (tm, nsec) ← scanTime text
  some (normalizeLtfsTime ⟨ltfsTimegm tm, nsec⟩)

/-- In the range the writer does not clamp -/
def Timespec.InRange (t : Timespec) : Prop :=
  ltfsTimeTMin ≤ t.sec ∧ t.sec ≤ ltfsTimeTMax

instance (t : Timespec) : Decidable t.InRange :=
  inferInstanceAs (Decidable (_ ∧ _))

/-- Nanoseconds of one second -/
def Timespec.ValidNsec (t : Timespec) : Prop :=
  ltfsNsecMin ≤ t.nsec ∧ t.nsec ≤ ltfsNsecMax

instance (t : Timespec) : Decidable t.ValidNsec :=
  inferInstanceAs (Decidable (_ ∧ _))

/-- Nanoseconds since 1970 -/
def Timespec.instant (t : Timespec) : ℤ :=
  1000000000 * t.sec + t.nsec

/-- `n` is a time the text can show, and none of those is nearer to `t`. -/
structure Nearest (n t : Timespec) : Prop where
  inRange : n.InRange
  validNsec : n.ValidNsec
  nearest : ∀ m : Timespec, m.InRange → m.ValidNsec →
    |n.instant - t.instant| ≤ |m.instant - t.instant|

/-- The date and the time of day are numbers of the lengths in the format. -/
structure TimeFields.WellFormed (f : TimeFields) : Prop where
  year : IsField 4 f.year
  mon : IsField 2 f.mon
  mday : IsField 2 f.mday
  hour : IsField 2 f.hour
  min : IsField 2 f.min
  sec : IsField 2 f.sec

/-- The date and the time of day that the text names -/
def TimeFields.tm (f : TimeFields) : Tm where
  year := value f.year - 1900
  mon := value f.mon - 1
  mday := value f.mday
  hour := value f.hour
  min := value f.min
  sec := value f.sec

/-- A text of the form `YYYY-MM-DDThh:mm:ss.nnnnnnnnnZ` that names a date of the calendar
and a time of day. -/
def IsTimeText (text : List Char) : Prop :=
  ∃ f : TimeFields, text = f.text ∧ f.WellFormed ∧ IsField 9 f.nsec ∧ f.tm.Valid

variable {t : Timespec} {f : TimeFields}

theorem normalizeLtfsTime_of_inRange (h : t.InRange) : normalizeLtfsTime t = (t, 0) := by
  rw [normalizeLtfsTime, if_neg (not_lt.mpr h.2), if_neg (not_lt.mpr h.1)]

/-! ## Reading a text -/

/-- The conversion of the year has no width and stops at the hyphen. -/
theorem scan_year (h : f.WellFormed) (rest : List Char) :
    scan (f.year ++ '-' :: rest).length (f.year ++ '-' :: rest) =
      some ((value f.year : ℤ), '-' :: rest) := by
  obtain ⟨hnum, hlen⟩ := h.year
  refine scan_append hnum (List.ne_nil_of_length_pos (by omega)) (by simp) (Or.inr ?_)
  intro c hc
  obtain rfl : '-' = c := by simpa using hc
  decide

theorem TimeFields.WellFormed.scanTime_text (h : f.WellFormed) {nsec : ℤ} {rest : List Char}
    (hnsec : scan 9 (f.nsec ++ ['Z']) = some (nsec, rest)) :
    scanTime f.text = some (f.tm, nsec) := by
  simp only [scanTime, TimeFields.text, scan_year h, Option.bind_eq_bind, Option.bind_some,
    literal, if_true, scan_field h.mon (by norm_num), scan_field h.mday (by norm_num),
    scan_field h.hour (by norm_num), scan_field h.min (by norm_num),
    scan_field h.sec (by norm_num), hnsec, TimeFields.tm]

/-! ## Writing a text -/

theorem timeFields_wellFormed {tm : Tm} (h : tm.Valid)
    (hyear : 0 ≤ tm.year + 1900 ∧ tm.year + 1900 ≤ 9999) (nsec : ℤ) :
    (timeFields tm nsec).WellFormed ∧ (timeFields tm nsec).tm = tm := by
  have hmon := h.date.month_lt
  have hmon' := h.mon_nonneg
  have hday := h.date.day_pos
  have hday' := h.date.day_le.trans (daysOfMonth_le _ _)
  obtain ⟨hy, hy'⟩ := @format_isField 4 _ hyear.1 (by omega)
  obtain ⟨hm, hm'⟩ := @format_isField 2 (tm.mon + 1) (by omega) (by omega)
  obtain ⟨hd, hd'⟩ := @format_isField 2 tm.mday (by omega) (by omega)
  obtain ⟨hh, hh'⟩ := @format_isField 2 _ h.hour.1 (by have := h.hour.2; omega)
  obtain ⟨hi, hi'⟩ := @format_isField 2 _ h.min.1 (by have := h.min.2; omega)
  obtain ⟨hs, hs'⟩ := @format_isField 2 _ h.sec.1 (by have := h.sec.2; omega)
  refine ⟨⟨hy, hm, hd, hh, hi, hs⟩, ?_⟩
  simp only [TimeFields.tm, timeFields, hy', hm', hd', hh', hi', hs', add_sub_cancel_right]

theorem TimeFields.WellFormed.timeFields_tm (h : f.WellFormed) (hnsec : IsField 9 f.nsec) :
    timeFields f.tm (value f.nsec) = f := by
  simp only [timeFields, TimeFields.tm, sub_add_cancel, h.year.format_value,
    h.mon.format_value, h.mday.format_value, h.hour.format_value, h.min.format_value,
    h.sec.format_value, hnsec.format_value]

theorem xmlFormatTime_of_inRange (h : t.InRange) :
    xmlFormatTime t = ((timeFields (ltfsGmtime t.sec) t.nsec).text, 0) := by
  rw [xmlFormatTime, normalizeLtfsTime_of_inRange h]

/-! ## Round trips -/

/-- Whatever was read has nanoseconds of at most nine characters. -/
theorem xmlParseTime_nsec {text : List Char} {ret : ℕ}
    (h : xmlParseTime text = some (t, ret)) :
    -100000000 < t.nsec ∧ t.nsec < 1000000000 := by
  rw [xmlParseTime] at h
  obtain ⟨⟨tm, nsec⟩, hscan, heq⟩ := Option.bind_eq_some_iff.mp h
  simp only [scanTime, Option.bind_eq_bind, Option.bind_eq_some_iff] at hscan
  obtain ⟨_, -, _, -, _, -, _, -, _, -, _, -, _, -, _, -, _, -, _, -, _, -, _, -,
    ⟨n, rest⟩, hnsec, hfields⟩ := hscan
  obtain ⟨-, rfl⟩ : _ ∧ n = nsec := by simpa using hfields
  have hbounds := scan_bounds (by norm_num) hnsec
  norm_num at hbounds
  simp only [Option.some.injEq, normalizeLtfsTime] at heq
  split_ifs at heq
  all_goals
    obtain ⟨rfl, -⟩ := Prod.mk.inj heq
  · decide
  · decide
  · exact hbounds

theorem xmlParseTime_xmlFormatTime_iff (h : t.InRange) :
    xmlParseTime (xmlFormatTime t).1 = some (t, 0) ↔
      -100000000 < t.nsec ∧ t.nsec < 1000000000 := by
  refine ⟨xmlParseTime_nsec, fun ⟨hlow, hhigh⟩ => ?_⟩
  obtain ⟨hvalid, -⟩ := ltfsGmtime_spec t.sec
  have hyear := (ltfsGmtime_year_iff t.sec).mpr h
  obtain ⟨hwf, htm⟩ := timeFields_wellFormed hvalid hyear t.nsec
  have hnsec := @scan_format 9 (by norm_num) t.nsec (by norm_num; exact hlow)
    (by norm_num; exact hhigh) ['Z']
  rw [xmlFormatTime_of_inRange h, xmlParseTime, hwf.scanTime_text hnsec, htm]
  simp only [Option.bind_eq_bind, Option.bind_some, ltfsTimegm_ltfsGmtime hyear.1,
    normalizeLtfsTime_of_inRange h]

theorem xmlFormatTime_xmlParseTime {text : List Char} (h : IsTimeText text) :
    ∃ t, xmlParseTime text = some (t, 0) ∧ xmlFormatTime t = (text, 0) := by
  obtain ⟨f, rfl, hwf, hnsec, hvalid⟩ := h
  have hyear : 0 ≤ f.tm.year + 1900 ∧ f.tm.year + 1900 ≤ 9999 := by
    have := hwf.year.1.value_lt
    rw [hwf.year.2] at this
    simp only [TimeFields.tm]
    omega
  have hgmtime := ltfsGmtime_ltfsTimegm hvalid hyear.1
  have hrange : (⟨ltfsTimegm f.tm, value f.nsec⟩ : Timespec).InRange :=
    (ltfsGmtime_year_iff _).mp (by rwa [hgmtime])
  refine ⟨⟨ltfsTimegm f.tm, value f.nsec⟩, ?_, ?_⟩
  · rw [xmlParseTime, hwf.scanTime_text (scan_field hnsec (by norm_num) _)]
    simp only [Option.bind_eq_bind, Option.bind_some, normalizeLtfsTime_of_inRange hrange]
  · rw [xmlFormatTime_of_inRange hrange]
    simp only [hgmtime, hwf.timeFields_tm hnsec]

theorem Nearest.of_above (h : ltfsTimeTMax < t.sec) (hnsec : t.ValidNsec) :
    Nearest ⟨ltfsTimeTMax, ltfsNsecMax⟩ t := by
  refine ⟨by decide, by decide, fun m hm hm' => ?_⟩
  obtain ⟨hpos, -⟩ := hnsec
  obtain ⟨-, hle⟩ := hm
  obtain ⟨-, hle'⟩ := hm'
  simp only [Timespec.instant, ltfsTimeTMax, ltfsNsecMax, ltfsNsecMin] at *
  rw [abs_of_nonpos (by omega), abs_of_nonpos (by omega)]
  omega

theorem Nearest.of_below (h : t.sec < ltfsTimeTMin) (hnsec : t.ValidNsec) :
    Nearest ⟨ltfsTimeTMin, ltfsNsecMin⟩ t := by
  refine ⟨by decide, by decide, fun m hm hm' => ?_⟩
  obtain ⟨-, hle⟩ := hnsec
  obtain ⟨hpos, -⟩ := hm
  obtain ⟨hpos', -⟩ := hm'
  simp only [Timespec.instant, ltfsTimeTMin, ltfsNsecMin, ltfsNsecMax] at *
  rw [abs_of_nonneg (by omega), abs_of_nonneg (by omega)]
  omega

/-- Outside the range the text is the one of the nearest time, and the writer says so. -/
theorem xmlFormatTime_clamped (h : ¬t.InRange) (hnsec : t.ValidNsec) :
    ∃ n, Nearest n t ∧ xmlFormatTime t = ((xmlFormatTime n).1, ltfsTimeOutOfRange) := by
  rcases lt_or_ge ltfsTimeTMax t.sec with habove | hle
  · have hnear := Nearest.of_above habove hnsec
    refine ⟨_, hnear, ?_⟩
    rw [xmlFormatTime_of_inRange hnear.inRange, xmlFormatTime, normalizeLtfsTime,
      if_pos habove]
  · have hbelow : t.sec < ltfsTimeTMin := by
      rw [Timespec.InRange] at h
      omega
    have hnear := Nearest.of_below hbelow hnsec
    refine ⟨_, hnear, ?_⟩
    rw [xmlFormatTime_of_inRange hnear.inRange, xmlFormatTime, normalizeLtfsTime,
      if_neg (not_lt.mpr hle), if_pos hbelow]

/-- Times go through their text: exactly if the nanoseconds have at most nine characters
in the range that is not clamped; as the nearest time, which is reported, outside of it;
and every text of a date and a time of day is the text of the time it is read as. -/
theorem xmlTime_roundTrips :
    (∀ t : Timespec, t.InRange →
      (xmlParseTime (xmlFormatTime t).1 = some (t, 0) ↔
        -100000000 < t.nsec ∧ t.nsec < 1000000000)) ∧
    (∀ t : Timespec, ¬t.InRange → t.ValidNsec →
      ∃ n, Nearest n t ∧ xmlFormatTime t = ((xmlFormatTime n).1, ltfsTimeOutOfRange)) ∧
    (∀ text, IsTimeText text →
      ∃ t, xmlParseTime text = some (t, 0) ∧ xmlFormatTime t = (text, 0)) :=
  ⟨fun _ => xmlParseTime_xmlFormatTime_iff, fun _ => xmlFormatTime_clamped,
    fun _ => xmlFormatTime_xmlParseTime⟩

theorem xmlTime_roundTrips_last_second :
    xmlParseTime (xmlFormatTime ⟨253402300799, 999999999⟩).1 =
      some (⟨253402300799, 999999999⟩, 0) :=
  (xmlTime_roundTrips.1 ⟨253402300799, 999999999⟩ (by decide)).mpr (by decide)

/-- A whole second of nanoseconds loses its last digit. -/
theorem xmlTime_loses_nanoseconds :
    (⟨0, 1000000000⟩ : Timespec).InRange ∧
      xmlParseTime (xmlFormatTime ⟨0, 1000000000⟩).1 = some (⟨0, 100000000⟩, 0) := by
  decide +kernel

end AuroraLtfs.Time
