import AuroraLtfs.Lib.Gregorian

/-!
# Seconds and dates

`ltfs_gmtime` takes seconds since 1970 apart into a date and a time of day, and
`ltfs_timegm` puts them together again.  Both work with divisions that round towards
zero, on days before and after March 1, 2000.  They are the two directions of one
correspondence with the proleptic Gregorian calendar.
-/

namespace AuroraLtfs.Time

open Gregorian

/-- `struct tm`: years since 1900, months and the time of day from 0 on, days from 1
on -/
structure Tm where
  year : ℤ
  mon : ℤ
  mday : ℤ
  hour : ℤ
  min : ℤ
  sec : ℤ
  deriving DecidableEq

def ltfsTimegm (t : Tm) : ℤ :=
  let tmp := (t.mon - 13).tdiv 12
  86400 * ((1461 * (t.year + 6700 + tmp)).tdiv 4
    + (367 * (t.mon - 1 - 12 * tmp)).tdiv 12
    - (3 * (t.year + 6800 + tmp).tdiv 100).tdiv 4
    + t.mday - 2472663)
    + 3600 * t.hour + 60 * t.min + t.sec

def ltfsGetDaysOfYear (nYear : ℤ) : ℤ :=
  if nYear.tmod 400 = 0 ∨ (nYear.tmod 100 ≠ 0 ∧ nYear.tmod 4 = 0) then 366 else 365

/-- The loop of `ltfs_get_mday_from_yday` from month `i` on: the month and the day of
the month. -/
def mdayLoop (i nMday : ℤ) : List ℤ → ℤ × ℤ
  | [] => (-1, -1)
  | days :: anDaysOfMonth =>
    if nMday < days then (i, if nMday < 0 then -1 else nMday + 1)
    else mdayLoop (i + 1) (nMday - days) anDaysOfMonth

def ltfsGetMdayFromYday (nYear nYday : ℤ) : ℤ × ℤ :=
  mdayLoop 0 nYday
    [31, if ltfsGetDaysOfYear nYear = 365 then 28 else 29, 31, 30, 31, 30, 31, 31, 30,
      31, 30, 31]

/-- Take seconds, minutes or hours off: the remainder that is not negative, and what
is left in the next unit. -/
def takeUnit (base nSrcTime : ℤ) : ℤ × ℤ :=
  let n := nSrcTime.tmod base
  let nSrcTime := nSrcTime.tdiv base
  if 0 ≤ n then (n, nSrcTime) else (n + base, nSrcTime - 1)

/-- Years since March 1, 2000, and the days from March 1 of that year. -/
def yearsSinceMarch (nSrcTime : ℤ) : ℤ × ℤ :=
  let n400Y := nSrcTime.tdiv 146097
  let nSrcTime := nSrcTime.tmod 146097
  let n100Y := nSrcTime.tdiv 36524
  let nSrcTime := nSrcTime.tmod 36524
  let nSrcTime := if n100Y = 4 then nSrcTime - 1 else nSrcTime
  let n4Y := nSrcTime.tdiv 1461
  let nSrcTime := nSrcTime.tmod 1461
  let nSrcTime := if n100Y < 0 ∧ n4Y = 0 then nSrcTime + 1 else nSrcTime
  let n1Y := nSrcTime.tdiv 365
  let nSrcTime := nSrcTime.tmod 365
  let nSrcTime := if n1Y = 4 then nSrcTime - 1 else nSrcTime
  let nSrcTime :=
    if n1Y < 0 ∧ ¬(n100Y < 0 ∧ n4Y = 0) then nSrcTime + 1 else nSrcTime
  (n400Y * 400 + n100Y * 100 + n4Y * 4 + n1Y, nSrcTime)

/-- The year and the day of the year, from the days since March 1, 2000. -/
def yearAndDay (nSrcTime : ℤ) : ℤ × ℤ :=
  let (nYears, nSrcTime) := yearsSinceMarch nSrcTime
  let nDaysOfYear := ltfsGetDaysOfYear (nYears + 2000)
  let nYday := nSrcTime + 31 + 28 + (nDaysOfYear - 365)
  if nDaysOfYear ≤ nYday then (nYears + 1 + 2000, nYday - nDaysOfYear)
  else if nYday < 0 then
    (nYears - 1 + 2000, nYday + ltfsGetDaysOfYear (nYears - 1 + 2000))
  else (nYears + 2000, nYday)

def ltfsGmtime (timep : ℤ) : Tm :=
  let (sec, nSrcTime) := takeUnit 60 timep
  let (min, nSrcTime) := takeUnit 60 nSrcTime
  let (hour, nSrcTime) := takeUnit 24 nSrcTime
  let (nYear, nYday) := yearAndDay (nSrcTime - 11017)
  let (mon, mday) := ltfsGetMdayFromYday nYear nYday
  { year := nYear - 1900, mon := mon, mday := mday, hour := hour, min := min, sec := sec }

/-! ## Divisions that round towards zero -/

theorem tdiv_tmod_cases (n : ℤ) {k : ℤ} (hk : 0 < k) :
    n = k * n.tdiv k + n.tmod k ∧
      ((0 ≤ n ∧ 0 ≤ n.tdiv k ∧ 0 ≤ n.tmod k ∧ n.tmod k < k) ∨
        (n < 0 ∧ n.tdiv k ≤ 0 ∧ -k < n.tmod k ∧ n.tmod k ≤ 0)) := by
  refine ⟨(Int.mul_tdiv_add_tmod n k).symm, ?_⟩
  rcases le_or_gt 0 n with h | h
  · exact Or.inl ⟨h, Int.tdiv_nonneg h hk.le, Int.tmod_nonneg k h, Int.tmod_lt_of_pos n hk⟩
  · have hneg := Int.tmod_lt_of_pos (-n) hk
    rw [Int.neg_tmod] at hneg
    have hsign := Int.tmod_nonneg k (Int.neg_nonneg_of_nonpos h.le)
    rw [Int.neg_tmod] at hsign
    have hdiv := Int.tdiv_nonneg (Int.neg_nonneg_of_nonpos h.le) hk.le
    rw [Int.neg_tdiv] at hdiv
    exact Or.inr ⟨h, by omega, by omega, by omega⟩

theorem takeUnit_spec {base : ℤ} (hbase : 0 < base) (nSrcTime : ℤ) :
    nSrcTime = base * (takeUnit base nSrcTime).2 + (takeUnit base nSrcTime).1 ∧
      0 ≤ (takeUnit base nSrcTime).1 ∧ (takeUnit base nSrcTime).1 < base := by
  obtain ⟨hsum, hcases⟩ := tdiv_tmod_cases nSrcTime hbase
  rw [takeUnit]
  split_ifs with h
  · exact ⟨hsum, h, Int.tmod_lt_of_pos nSrcTime hbase⟩
  · dsimp only
    rw [mul_sub]
    omega

theorem tmod_eq_zero_iff (n k : ℤ) : n.tmod k = 0 ↔ n % k = 0 := by
  rw [← Int.dvd_iff_tmod_eq_zero, Int.dvd_iff_emod_eq_zero]

theorem ltfsGetDaysOfYear_eq (nYear : ℤ) : ltfsGetDaysOfYear nYear = daysOfYear nYear := by
  simp only [ltfsGetDaysOfYear, daysOfYear, IsLeap, ne_eq, tmod_eq_zero_iff]
  rfl

/-- The number of March 1, in years that begin with it. -/
theorem march_eq (year : ℤ) :
    yearStart year + 59 + (daysOfYear year - 365) =
      365 * year + year / 4 - year / 100 + year / 400 + 60 := by
  unfold yearStart daysOfYear IsLeap
  split_ifs <;> omega

theorem march_split (n400Y n100Y n4Y n1Y : ℤ) :
    let year := n400Y * 400 + n100Y * 100 + n4Y * 4 + n1Y + 2000
    365 * year + year / 4 - year / 100 + year / 400 + 60 =
      730545 + 146097 * n400Y + 36524 * n100Y + 1461 * n4Y + 365 * n1Y + n1Y / 4
        - (n4Y * 4 + n1Y) / 100 + (n100Y * 100 + n4Y * 4 + n1Y) / 400 := by
  intro year
  have h4 : year / 4 = 100 * n400Y + 25 * n100Y + n4Y + n1Y / 4 + 500 := by omega
  have h100 : year / 100 = 4 * n400Y + n100Y + (n4Y * 4 + n1Y) / 100 + 20 := by omega
  have h400 : year / 400 = n400Y + (n100Y * 100 + n4Y * 4 + n1Y) / 400 + 5 := by omega
  omega

theorem yearsSinceMarch_spec (n : ℤ) :
    n + 730545 = yearStart ((yearsSinceMarch n).1 + 2000) + 59 +
        (daysOfYear ((yearsSinceMarch n).1 + 2000) - 365) + (yearsSinceMarch n).2 ∧
      -365 ≤ (yearsSinceMarch n).2 ∧ (yearsSinceMarch n).2 ≤ 365 := by
  rw [yearsSinceMarch]
  obtain ⟨h1, h1'⟩ := tdiv_tmod_cases n (k := 146097) (by norm_num)
  generalize n.tdiv 146097 = n400Y at *
  generalize n.tmod 146097 = r1 at *
  obtain ⟨h2, h2'⟩ := tdiv_tmod_cases r1 (k := 36524) (by norm_num)
  generalize r1.tdiv 36524 = n100Y at *
  generalize r1.tmod 36524 = r2 at *
  dsimp only
  generalize hr2 : (if n100Y = 4 then r2 - 1 else r2) = r2' at *
  obtain ⟨h3, h3'⟩ := tdiv_tmod_cases r2' (k := 1461) (by norm_num)
  generalize r2'.tdiv 1461 = n4Y at *
  generalize r2'.tmod 1461 = r3 at *
  generalize hr3 : (if n100Y < 0 ∧ n4Y = 0 then r3 + 1 else r3) = r3' at *
  obtain ⟨h4, h4'⟩ := tdiv_tmod_cases r3' (k := 365) (by norm_num)
  generalize r3'.tdiv 365 = n1Y at *
  generalize r3'.tmod 365 = r4 at *
  rw [march_eq, march_split]
  rcases h2' with ⟨hr1, hb⟩ | ⟨hr1, hb⟩
  · -- on or after March 1 of the first year of the 400
    rw [if_neg (by omega : ¬(n100Y < 0 ∧ n4Y = 0))] at hr3
    have hd0 : 0 ≤ n1Y := by split_ifs at hr2 <;> omega
    rw [if_neg (by omega : ¬(n1Y < 0 ∧ ¬(n100Y < 0 ∧ n4Y = 0)))]
    split_ifs at hr2 ⊢ with hb4 hd4 hd4
    · omega
    · omega
    · omega
    · have : n1Y / 4 = 0 := by omega
      have : n4Y ≤ 24 := by omega
      have : (n4Y * 4 + n1Y) / 100 = 0 := by omega
      omega
  · rw [if_neg (by omega : ¬n100Y = 4)] at hr2
    have hd : n1Y ≤ 0 := by split_ifs at hr3 <;> omega
    rw [if_neg (by omega : ¬n1Y = 4)]
    have hquarter : -4 ≤ n1Y := by split_ifs at hr3 <;> omega
    have hcentury : -100 ≤ n4Y * 4 + n1Y := by split_ifs at hr3 <;> omega
    have hfour : -400 ≤ n100Y * 100 + n4Y * 4 + n1Y := by split_ifs at hr3 <;> omega
    split_ifs at hr3 ⊢ with hfirst hd0 hd0
    · omega
    · have hlast : n1Y / 4 = -1 := by omega
      have hlast' : (n4Y * 4 + n1Y) / 100 = -1 := by omega
      omega
    · omega
    · omega

theorem yearAndDay_spec (n : ℤ) :
    yearStart (yearAndDay n).1 + (yearAndDay n).2 = n + 730545 ∧
      0 ≤ (yearAndDay n).2 ∧ (yearAndDay n).2 < daysOfYear (yearAndDay n).1 := by
  obtain ⟨hsum, hlow, hhigh⟩ := yearsSinceMarch_spec n
  rw [yearAndDay]
  generalize yearsSinceMarch n = march at *
  obtain ⟨nYears, off⟩ := march
  simp only [ltfsGetDaysOfYear_eq] at *
  have hbounds : ∀ y, 365 ≤ daysOfYear y ∧ daysOfYear y ≤ 366 := by
    intro y
    unfold daysOfYear
    split_ifs <;> norm_num
  have hnext := yearStart_succ (nYears + 2000)
  have hthis := yearStart_succ (nYears - 1 + 2000)
  have hyear := hbounds (nYears + 2000)
  have hyear' := hbounds (nYears + 1 + 2000)
  have hyear'' := hbounds (nYears - 1 + 2000)
  rw [show nYears + 2000 + 1 = nYears + 1 + 2000 by ring] at hnext
  rw [show nYears - 1 + 2000 + 1 = nYears + 2000 by ring] at hthis
  split_ifs
  · dsimp only
    omega
  · dsimp only
    omega
  · dsimp only
    omega

/-! ## Months -/

theorem mdayLoop_spec (i nMday : ℤ) (days : List ℤ) (hpos : 0 ≤ nMday)
    (hlt : nMday < days.sum) :
    ∃ j, ∃ hj : j < days.length,
      mdayLoop i nMday days = (i + j, nMday - (days.take j).sum + 1) ∧
        (days.take j).sum ≤ nMday ∧ nMday < (days.take j).sum + days[j] := by
  induction days generalizing i nMday with
  | nil =>
    rw [List.sum_nil] at hlt
    omega
  | cons first days ih =>
    rw [List.sum_cons] at hlt
    rw [mdayLoop, if_neg (not_lt.mpr hpos)]
    split_ifs with hfirst
    · exact ⟨0, by simp, by simp, by simpa, by simpa⟩
    · obtain ⟨j, hj, heq, hlow, hhigh⟩ := ih (i + 1) (nMday - first) (by omega) (by omega)
      refine ⟨j + 1, by simpa, ?_, ?_, ?_⟩
      · rw [heq, List.take_succ_cons, List.sum_cons]
        push_cast
        exact Prod.ext (by dsimp only; ring) (by dsimp only; ring)
      · rw [List.take_succ_cons, List.sum_cons]
        omega
      · rw [List.take_succ_cons, List.sum_cons, List.getElem_cons_succ]
        omega

theorem ltfsGetMdayFromYday_spec {nYear nYday : ℤ} (hpos : 0 ≤ nYday)
    (hlt : nYday < daysOfYear nYear) :
    ∃ month : ℕ, ltfsGetMdayFromYday nYear nYday =
        ((month : ℤ), nYday - monthStart nYear month + 1) ∧
      ValidDate nYear month (nYday - monthStart nYear month + 1) := by
  have htable : [31, if ltfsGetDaysOfYear nYear = 365 then 28 else 29, 31, 30, 31, 30,
      31, 31, 30, 31, 30, 31] = (List.range 12).map (daysOfMonth nYear) := by
    rw [ltfsGetDaysOfYear_eq, daysOfYear]
    by_cases hleap : IsLeap nYear
    · simp [List.range_succ, daysOfMonth, hleap]
    · simp [List.range_succ, daysOfMonth, hleap]
  have hsum : ((List.range 12).map (daysOfMonth nYear)).sum = daysOfYear nYear :=
    monthStart_twelve nYear
  obtain ⟨j, hj, heq, hlow, hhigh⟩ :=
    mdayLoop_spec 0 nYday ((List.range 12).map (daysOfMonth nYear)) hpos (by rwa [hsum])
  have hj' : j < 12 := by simpa using hj
  have htake : (((List.range 12).map (daysOfMonth nYear)).take j).sum =
      monthStart nYear j := by
    rw [← List.map_take, List.take_range, min_eq_left hj'.le, monthStart]
  rw [htake] at heq hlow hhigh
  rw [List.getElem_map, List.getElem_range] at hhigh
  refine ⟨j, ?_, hj', by omega, by omega⟩
  rw [ltfsGetMdayFromYday, htable, heq, zero_add]

/-! ## Both directions -/

/-- A date of the calendar and a time of day -/
structure Tm.Valid (t : Tm) : Prop where
  mon_nonneg : 0 ≤ t.mon
  date : ValidDate (t.year + 1900) t.mon.toNat t.mday
  hour : 0 ≤ t.hour ∧ t.hour < 24
  min : 0 ≤ t.min ∧ t.min < 60
  sec : 0 ≤ t.sec ∧ t.sec < 60

/-- Seconds since January 1, 1970, which is day 719528. -/
def Tm.seconds (t : Tm) : ℤ :=
  86400 * (dayNumber (t.year + 1900) t.mon.toNat t.mday - 719528) +
    3600 * t.hour + 60 * t.min + t.sec

theorem Tm.Valid.seconds_injective {t u : Tm} (ht : t.Valid) (hu : u.Valid)
    (h : t.seconds = u.seconds) : t = u := by
  obtain ⟨htmon, htdate, hthour, htmin, htsec⟩ := ht
  obtain ⟨humon, hudate, huhour, humin, husec⟩ := hu
  simp only [Tm.seconds] at h
  obtain ⟨hyear, hmon, hday⟩ := dayNumber_injective htdate hudate (by omega)
  cases t
  cases u
  simp only [Tm.mk.injEq]
  dsimp only at *
  omega

theorem ltfsGmtime_spec (timep : ℤ) :
    (ltfsGmtime timep).Valid ∧ (ltfsGmtime timep).seconds = timep := by
  unfold ltfsGmtime
  have hsec := takeUnit_spec (show (0 : ℤ) < 60 by norm_num) timep
  generalize takeUnit 60 timep = r at *
  obtain ⟨sec, minutes⟩ := r
  have hmin := takeUnit_spec (show (0 : ℤ) < 60 by norm_num) minutes
  dsimp only at *
  generalize takeUnit 60 minutes = r at *
  obtain ⟨min, hours⟩ := r
  have hhour := takeUnit_spec (show (0 : ℤ) < 24 by norm_num) hours
  dsimp only at *
  generalize takeUnit 24 hours = r at *
  obtain ⟨hour, days⟩ := r
  dsimp only at *
  obtain ⟨hday, hpos, hlt⟩ := yearAndDay_spec (days - 11017)
  generalize yearAndDay (days - 11017) = r at *
  obtain ⟨nYear, nYday⟩ := r
  obtain ⟨month, heq, hvalid⟩ := ltfsGetMdayFromYday_spec hpos hlt
  dsimp only at *
  rw [heq]
  refine ⟨⟨by simp, ?_, hhour.2, hmin.2, hsec.2⟩, ?_⟩
  · simpa using hvalid
  · simp only [Tm.seconds, sub_add_cancel, Int.toNat_natCast, dayNumber]
    omega

/-- From March on the months before are those of 367/12 days, rounded. -/
theorem monthStart_of_march (year : ℤ) {month : ℕ} (h : 2 ≤ month) (h' : month < 12) :
    monthStart year month =
      59 + (daysOfYear year - 365) + (367 * ((month : ℤ) - 1) / 12 - 30) := by
  unfold daysOfYear
  by_cases hleap : IsLeap year
  · interval_cases month <;>
      simp [monthStart, List.range_succ, daysOfMonth, hleap]
  · interval_cases month <;>
      simp [monthStart, List.range_succ, daysOfMonth, hleap]

theorem monthStart_of_lt_march (year : ℤ) {month : ℕ} (h : month < 2) :
    monthStart year month = 31 * month := by
  interval_cases month
  · simp [monthStart]
  · simp [monthStart, List.range_succ, daysOfMonth]

theorem quarters_eq (years : ℤ) : 1461 * years / 4 = 365 * years + years / 4 := by
  omega

theorem centuries_eq (years : ℤ) :
    3 * (years / 100) / 4 = years / 100 - (years + 300) / 400 := by
  omega

theorem ltfsTimegm_eq {t : Tm} (h : t.Valid) (hyear : 0 ≤ t.year + 1900) :
    ltfsTimegm t = t.seconds := by
  obtain ⟨hmon, ⟨hlt, -, -⟩, -, -, -⟩ := h
  obtain ⟨year, mon, mday, hour, min, sec⟩ := t
  obtain ⟨month, rfl⟩ := Int.eq_ofNat_of_zero_le hmon
  simp only [ltfsTimegm, Tm.seconds, dayNumber, Int.toNat_natCast] at *
  rcases lt_or_ge month 2 with hjan | hmar
  · -- January and February count as months of the year before
    have htmp : ((month : ℤ) - 13).tdiv 12 = -1 := by
      interval_cases month <;> rfl
    rw [htmp, monthStart_of_lt_march _ hjan, Int.tdiv_eq_ediv_of_nonneg (by omega),
      Int.tdiv_eq_ediv_of_nonneg (by omega),
      Int.tdiv_eq_ediv_of_nonneg (a := year + 6800 + -1) (by omega),
      Int.tdiv_eq_ediv_of_nonneg (by omega), yearStart, quarters_eq, centuries_eq]
    have hmonth : 367 * ((month : ℤ) - 1 - 12 * -1) / 12 = 336 + 31 * month := by omega
    omega
  · have htmp : ((month : ℤ) - 13).tdiv 12 = 0 := by
      interval_cases month <;> rfl
    have hmarch := march_eq (year + 1900)
    rw [htmp, monthStart_of_march _ hmar hlt, Int.tdiv_eq_ediv_of_nonneg (by omega),
      Int.tdiv_eq_ediv_of_nonneg (by omega),
      Int.tdiv_eq_ediv_of_nonneg (a := year + 6800 + 0) (by omega),
      Int.tdiv_eq_ediv_of_nonneg (by omega), quarters_eq, centuries_eq, mul_zero, sub_zero]
    omega

theorem ltfsTimegm_ltfsGmtime {timep : ℤ} (h : 0 ≤ (ltfsGmtime timep).year + 1900) :
    ltfsTimegm (ltfsGmtime timep) = timep := by
  obtain ⟨hvalid, hseconds⟩ := ltfsGmtime_spec timep
  rw [ltfsTimegm_eq hvalid h, hseconds]

theorem ltfsGmtime_ltfsTimegm {t : Tm} (h : t.Valid) (hyear : 0 ≤ t.year + 1900) :
    ltfsGmtime (ltfsTimegm t) = t := by
  obtain ⟨hvalid, hseconds⟩ := ltfsGmtime_spec (ltfsTimegm t)
  exact hvalid.seconds_injective h (by rw [hseconds, ltfsTimegm_eq h hyear])

/-- The years 0000 to 9999 are the range of the normalised times. -/
theorem ltfsGmtime_year_iff (timep : ℤ) :
    (0 ≤ (ltfsGmtime timep).year + 1900 ∧ (ltfsGmtime timep).year + 1900 ≤ 9999) ↔
      (-62167219200 ≤ timep ∧ timep ≤ 253402300799) := by
  obtain ⟨hvalid, hseconds⟩ := ltfsGmtime_spec timep
  have hmem := hvalid.date.dayNumber_mem
  obtain ⟨-, -, hhour, hmin, hsec⟩ := hvalid
  rw [Tm.seconds] at hseconds
  generalize dayNumber _ _ _ = day at *
  unfold yearStart at hmem
  omega

end AuroraLtfs.Time
