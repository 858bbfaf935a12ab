import CodeAtlas.Timestamp
import Mathlib.Tactic.IntervalCases
import Mathlib.Tactic.LinearCombination
import Mathlib.Tactic.Ring
/-!
# Points in time are told by their texts

Days are counted in eras of 400 years, and years begin with March meanwhile, so that a leap day is
the last of its year. The date of a day and the day of a date undo each other, and the text of a point
in time reads back as the point in time.

Results:
1. `DayOfEra`, `exists_dayOfEra`: how the days of an era come apart.
2. `isDate_dateOfDays`: every day has a date that there is, and is the day of this date.
3. `readDigits_padded`, `readFraction_renderFraction`: the parts of a text read back.
4. `parse?_renderOffset`: the text of a point in time reads back as the point in time.
-/

namespace CodeAtlas.Timestamp

/-! ## The days of an era -/

/-- The day `n` of an era is the day `d` of the year `k` of the group of four years `q` of the century
`c`, all of them counted from zero. Years end with a leap day if they are the last of their group, but
of the last groups of the centuries only if it is the last century. -/
structure DayOfEra (n c q k d : Int) : Prop where
  century : 0 ≤ c ∧ c ≤ 3
  group : 0 ≤ q ∧ q ≤ 24
  year : 0 ≤ k ∧ k ≤ 3
  day : 0 ≤ d ∧ d ≤ 365
  leap : d = 365 → k = 3 ∧ (q = 24 → c = 3)
  sum : n = 36524 * c + 1461 * q + 365 * k + d

theorem exists_dayOfEra {n : Int} (h : 0 ≤ n ∧ n < 146097) : ∃ c q k d, DayOfEra n c q k d := by
  -- A century and a year may be the last ones with a day more than the others.
  obtain ⟨c, r, hc, hr, hn⟩ : ∃ c r : Int, (0 ≤ c ∧ c ≤ 3) ∧
      (0 ≤ r ∧ r ≤ 36524 ∧ (r = 36524 → c = 3)) ∧ n = 36524 * c + r :=
    ⟨min (n / 36524) 3, n - 36524 * min (n / 36524) 3, by omega, by omega, by omega⟩
  obtain ⟨q, s, hq, hs, hrq⟩ : ∃ q s : Int, (0 ≤ q ∧ q ≤ 24) ∧ (0 ≤ s ∧ s ≤ 1460) ∧
      r = 1461 * q + s :=
    ⟨r / 1461, r % 1461, by omega, by omega, by omega⟩
  obtain ⟨k, d, hk, hd, hsk⟩ : ∃ k d : Int, (0 ≤ k ∧ k ≤ 3) ∧
      (0 ≤ d ∧ d ≤ 365 ∧ (d = 365 → k = 3)) ∧ s = 365 * k + d :=
    ⟨min (s / 365) 3, s - 365 * min (s / 365) 3, by omega, by omega, by omega⟩
  exact ⟨c, q, k, d, hc, hq, hk, ⟨hd.1, hd.2.1⟩, fun hlast => ⟨hd.2.2 hlast, by omega⟩, by omega⟩

section

variable {n c q k d : Int}

/-- The last day of an era counts in both of these divisions. -/
theorem DayOfEra.century_eq (h : DayOfEra n c q k d) : n / 36524 - n / 146096 = c := by
  obtain ⟨hc, hq, hk, hd, hleap, hn⟩ := h
  have hlast : n = 146096 ∨ (36524 * c ≤ n ∧ n < 36524 * c + 36524) := by omega
  rcases hlast with rfl | _
  · omega
  · omega

/-- The year is found by counting no leap days. -/
theorem DayOfEra.year_eq (h : DayOfEra n c q k d) :
    (n - n / 1460 + n / 36524 - n / 146096) / 365 = 100 * c + 4 * q + k := by
  have hcentury := h.century_eq
  obtain ⟨hc, hq, hk, hd, hleap, hn⟩ := h
  have hgroup : n / 1460 = (24 * c + q + 365 * k + d) / 1460 + (25 * c + q) := by
    rw [hn, ← Int.add_mul_ediv_left _ _ (by decide)]
    exact congrArg (· / 1460) (by ring)
  -- Late in a group the division counts one day more, as it does on a leap day.
  obtain ⟨e, he, hday⟩ : ∃ e, (24 * c + q + 365 * k + d) / 1460 = e ∧ 0 ≤ d - e ∧ d - e < 365 := by
    clear hcentury hgroup
    rcases Int.lt_or_le (24 * c + q + 365 * k + d) 1460 with hlt | hge
    · exact ⟨0, by omega, by omega, by omega⟩
    · exact ⟨1, by omega, by omega, by omega⟩
  have hsum : n - n / 1460 + n / 36524 - n / 146096 =
      (d - e) + 365 * (100 * c + 4 * q + k) := by
    linear_combination hn - hgroup + hcentury - he
  rw [hsum, Int.add_mul_ediv_left _ _ (by decide), Int.ediv_eq_zero_of_lt hday.1 hday.2,
    Int.zero_add]

/-- The leap days before a year of the era, by groups and by centuries. -/
theorem DayOfEra.leaps_eq (h : DayOfEra n c q k d) : (100 * c + 4 * q + k) / 4 = 25 * c + q ∧
    (100 * c + 4 * q + k) / 100 = c := by
  obtain ⟨_, hq, hk, _, _, _⟩ := h
  exact ⟨by omega, by omega⟩

end

/-! ## Dates -/

/-- There is such a date. -/
structure IsDate (y : Int) (m d : Nat) : Prop where
  month : 1 ≤ m ∧ m ≤ 12
  day : 1 ≤ d ∧ d ≤ daysInMonth y m

/-- The date of a day of a year, where the year begins with March. -/
def dateFromMarch (year day : Int) : Int × Nat × Nat :=
  let monthFromMarch := (5 * day + 2) / 153
  let month := if monthFromMarch < 10 then monthFromMarch + 3 else monthFromMarch - 9
  (year + (if month ≤ 2 then 1 else 0), month.toNat,
    (day - (153 * monthFromMarch + 2) / 5 + 1).toNat)

theorem daysInMonth_le (year : Int) (month : Nat) : daysInMonth year month ≤ 31 := by
  unfold daysInMonth
  split
  · split <;> decide
  all_goals decide

theorem isLeapYear_iff {year : Int} :
    isLeapYear year = true ↔ 4 ∣ year ∧ (100 ∣ year → 400 ∣ year) := by
  simp [isLeapYear, Int.dvd_iff_fmod_eq_zero]
  omega

theorem monthFromMarch_le {d : Int} (hd : 0 ≤ d ∧ d ≤ 365) :
    0 ≤ (5 * d + 2) / 153 ∧ (5 * d + 2) / 153 ≤ 11 := by omega

section

variable {n era c q k d year : Int} {month day : Nat}

theorem dateOfDays_eq {days : Int} (hera : (days + 719468).fdiv 146097 = era)
    (h : DayOfEra (days + 719468 - era * 146097) c q k d) :
    dateOfDays days = dateFromMarch (100 * c + 4 * q + k + era * 400) d := by
  have hday : days + 719468 - era * 146097 - (365 * (100 * c + 4 * q + k) +
      (100 * c + 4 * q + k) / 4 - (100 * c + 4 * q + k) / 100) = d := by
    rw [h.leaps_eq.1, h.leaps_eq.2]
    linear_combination h.sum
  rw [dateOfDays]
  simp only [hera, h.year_eq, hday]
  rw [dateFromMarch, Int.add_assoc]

/-- A day of the era has a date that there is: the last month is as long as the year allows. -/
theorem isDate_dateFromMarch (h : DayOfEra n c q k d)
    (hdate : dateFromMarch (100 * c + 4 * q + k + era * 400) d = (year, month, day)) :
    IsDate year month day := by
  obtain ⟨hfirst, hlast⟩ := monthFromMarch_le h.day
  obtain ⟨hc, hq, hk, hd, hleap, -⟩ := h
  rw [dateFromMarch] at hdate
  generalize hm : (5 * d + 2) / 153 = m at hdate hfirst hlast
  obtain rfl | hother : m = 11 ∨ m ≤ 10 := by omega
  · obtain ⟨rfl, rfl, rfl⟩ := hdate
    refine ⟨by decide, by omega, ?_⟩
    change (d - 337 + 1).toNat ≤
      if isLeapYear (100 * c + 4 * q + k + era * 400 + 1) then 29 else 28
    split
    · omega
    · next hcommon =>
      have hshort : d ≠ 365 := by
        rintro rfl
        obtain ⟨rfl, hcentury⟩ := hleap rfl
        exact hcommon (isLeapYear_iff.mpr (by omega))
      omega
  · clear hleap
    interval_cases m <;> obtain ⟨rfl, rfl, rfl⟩ := hdate <;>
      exact ⟨by decide, by omega, by simp [daysInMonth]; omega⟩

/-- The day of the date of a day of the era is this day. -/
theorem daysOfDate_dateFromMarch (h : DayOfEra n c q k d)
    (hdate : dateFromMarch (100 * c + 4 * q + k + era * 400) d = (year, month, day)) :
    daysOfDate year month day = era * 146097 + n - 719468 := by
  obtain ⟨hgroups, hcenturies⟩ := h.leaps_eq
  obtain ⟨hfirst, hlast⟩ := monthFromMarch_le h.day
  obtain ⟨hc, hq, hk, hd, -, hn⟩ := h
  rw [dateFromMarch] at hdate
  generalize hm : (5 * d + 2) / 153 = m at hdate hfirst hlast
  have hyear : (if month ≤ 2 then year - 1 else year) = 100 * c + 4 * q + k + era * 400 := by
    clear hgroups hcenturies hn
    obtain ⟨rfl, rfl, -⟩ := hdate
    interval_cases m <;> simp
  have hmonth : ((month : Int) + 9) % 12 = m := by
    obtain ⟨-, rfl, -⟩ := hdate
    clear hgroups hcenturies hn hm
    interval_cases m <;> rfl
  have hday : (153 * m + 2) / 5 + (day : Int) - 1 = d := by
    obtain ⟨-, -, rfl⟩ := hdate
    omega
  have hera : (100 * c + 4 * q + k + era * 400).fdiv 400 = era := by
    rw [Int.fdiv_eq_ediv_of_nonneg _ (by decide)]
    omega
  rw [daysOfDate]
  simp only [hyear, hera, hmonth, hday, Int.add_sub_cancel, hgroups, hcenturies]
  linear_combination -hn

/-- Every day has a date that there is, and is the day of this date. -/
theorem isDate_dateOfDays {days : Int} (hdate : dateOfDays days = (year, month, day)) :
    IsDate year month day ∧ daysOfDate year month day = days := by
  obtain ⟨era, hera⟩ : ∃ era, (days + 719468).fdiv 146097 = era := ⟨_, rfl⟩
  have hn : 0 ≤ days + 719468 - era * 146097 ∧ days + 719468 - era * 146097 < 146097 := by
    rw [Int.fdiv_eq_ediv_of_nonneg _ (by decide)] at hera
    omega
  obtain ⟨c, q, k, d, h⟩ := exists_dayOfEra hn
  rw [dateOfDays_eq hera h] at hdate
  refine ⟨isDate_dateFromMarch h hdate, (daysOfDate_dateFromMarch h hdate).trans ?_⟩
  omega

end

/-! ## Digits -/

/-- Digits are read as the number that they stand for, whatever comes behind them. -/
theorem readDigits_append {ds : List Char} (hds : ∀ c ∈ ds, c.isDigit = true) (cs : List Char)
    (n : Nat) : readDigits ds.length (ds ++ cs) n = some (Nat.ofDigitChars 10 ds n, cs) := by
  induction ds generalizing n with
  | nil => rfl
  | cons d ds ih =>
    rw [List.length_cons, List.cons_append, readDigits, if_pos (hds d List.mem_cons_self),
      ih (fun c hc => hds c (List.mem_cons_of_mem d hc)), Nat.ofDigitChars_cons, Nat.mul_comm]
    rfl

section

variable {width n : Nat}

theorem toList_padded (width n : Nat) : (padded width n).toList =
    List.replicate (width - (Nat.toDigits 10 n).length) '0' ++ Nat.toDigits 10 n :=
  String.toList_ofList

theorem isDigit_padded : ∀ c ∈ (padded width n).toList, c.isDigit = true := by
  intro c hc
  rw [toList_padded] at hc
  rcases List.mem_append.mp hc with hc | hc
  · exact List.eq_of_mem_replicate hc ▸ rfl
  · exact Nat.isDigit_of_mem_toDigits (by decide) (by decide) hc

theorem length_padded (hwidth : 0 < width) (hn : n < 10 ^ width) :
    (padded width n).toList.length = width := by
  have hlength := (Nat.length_toDigits_le_iff (by decide) hwidth).mpr hn
  rw [toList_padded, List.length_append, List.length_replicate]
  omega

theorem ofDigitChars_padded : Nat.ofDigitChars 10 (padded width n).toList 0 = n := by
  rw [toList_padded, Nat.ofDigitChars_append, Nat.ofDigitChars_replicate_zero, Nat.mul_zero,
    Nat.ofDigitChars_ten_toDigits]

/-- The last digits of a number read back as the number if there are no others. -/
theorem readDigits_padded (hwidth : 0 < width) (hn : n < 10 ^ width) (cs : List Char) :
    readDigits width ((padded width n).toList ++ cs) 0 = some (n, cs) := by
  have hread := readDigits_append (@isDigit_padded width n) cs 0
  rwa [length_padded hwidth hn, ofDigitChars_padded] at hread

/-- Reading goes on behind a number. -/
theorem bind_readDigits {α : Type} (hwidth : 0 < width) (hn : n < 10 ^ width) {cs : List Char}
    {next : Nat × List Char → Option α} {a : α} (hnext : next (n, cs) = some a) :
    (readDigits width ((padded width n).toList ++ cs) 0).bind next = some a :=
  Option.bind_eq_some_iff.mpr ⟨_, readDigits_padded hwidth hn cs, hnext⟩

/-- Reading goes on behind a character. -/
theorem bind_readOne {α : Type} {allowed : List Char} {c : Char} (hc : allowed.contains c = true)
    {cs : List Char} {next : List Char → Option α} {a : α} (hnext : next cs = some a) :
    (readOne allowed (c :: cs)).bind next = some a :=
  Option.bind_eq_some_iff.mpr ⟨cs, if_pos hc, hnext⟩

/-- Digits of a fraction are filled up with zeros. -/
theorem readFraction_padded (hwidth : 0 < width) (hle : width ≤ 9) (hn : n < 10 ^ width)
    (cs : List Char) : readFraction ('.' :: (padded width n).toList ++ '+' :: cs) =
      some (n * 10 ^ (9 - width), '+' :: cs) := by
  have hlength := length_padded hwidth hn
  have htake : ((padded width n).toList ++ '+' :: cs).takeWhile Char.isDigit =
      (padded width n).toList := by
    rw [List.takeWhile_append_of_pos isDigit_padded]
    exact List.append_nil _
  have hdrop : ((padded width n).toList ++ '+' :: cs).dropWhile Char.isDigit = '+' :: cs := by
    rw [List.dropWhile_append_of_pos isDigit_padded]
    rfl
  have hnonempty : (padded width n).toList.isEmpty = false := by
    rw [← Bool.not_eq_true, List.isEmpty_iff]
    exact fun hnil => absurd (hnil ▸ hlength) (by simp; omega)
  have hvalue : ∀ ds m, ds.foldl (fun n (d : Char) => n * 10 + (d.toNat - 48)) m =
      Nat.ofDigitChars 10 ds m := by
    intro ds m
    rw [Nat.ofDigitChars_eq_foldl]
    exact congrArg (fun f => ds.foldl f m) (funext₂ fun n d => by rw [Nat.mul_comm]; rfl)
  rw [List.cons_append, readFraction]
  simp only [htake, hdrop, hnonempty, hvalue, hlength, List.take_of_length_le (hlength ▸ hle)]
  rw [Nat.ofDigitChars_append, ofDigitChars_padded, Nat.ofDigitChars_replicate_zero, Nat.mul_comm]
  rfl

/-- The fraction of a second reads back, in however many digits it is written. -/
theorem readFraction_renderFraction {nanos : Nat} (h : nanos < 1000000000) (cs : List Char) :
    readFraction ((renderFraction nanos).toList ++ '+' :: cs) = some (nanos, '+' :: cs) := by
  have hsome : ∀ width n, 0 < width → width ≤ 9 → n < 10 ^ width → n * 10 ^ (9 - width) = nanos →
      readFraction (("." ++ padded width n).toList ++ '+' :: cs) = some (nanos, '+' :: cs) := by
    rintro width n hwidth hle hn rfl
    rw [String.toList_append]
    exact readFraction_padded hwidth hle hn cs
  rw [renderFraction]
  split
  · next hzero =>
    cases beq_iff_eq.mp hzero
    rfl
  split
  · next hmillis =>
    exact hsome 3 _ (by decide) (by decide) (by omega)
      (Nat.div_mul_cancel (Nat.dvd_of_mod_eq_zero (beq_iff_eq.mp hmillis)))
  split
  · next hmicros =>
    exact hsome 6 _ (by decide) (by decide) (by omega)
      (Nat.div_mul_cancel (Nat.dvd_of_mod_eq_zero (beq_iff_eq.mp hmicros)))
  · exact hsome 9 _ (by decide) (by decide) (by omega) (Nat.mul_one nanos)

end

/-! ## Main result -/

/-- The year of a point in time. -/
def year (t : Timestamp) : Int := (dateOfDays (t.seconds.fdiv 86400)).1

/-- The point in time lies in a year of four digits, and not in a leap second. -/
structure IsOrdinary (t : Timestamp) : Prop where
  year : 0 ≤ t.year ∧ t.year ≤ 9999
  nanos : t.nanos < 1000000000

/-- The offset of UTC behind its sign. -/
def zeroOffset : List Char := ['0', '0', ':', '0', '0']

theorem toList_renderOffset {t : Timestamp} (h : t.IsOrdinary) {year : Int} {month day : Nat}
    (hdate : dateOfDays (t.seconds.fdiv 86400) = (year, month, day)) {ofDay : Nat}
    (hofDay : (t.seconds.fmod 86400).toNat = ofDay) : t.renderOffset.toList =
      (padded 4 year.toNat).toList ++ '-' :: ((padded 2 month).toList ++ '-' ::
        ((padded 2 day).toList ++ 'T' :: ((padded 2 (ofDay / 3600)).toList ++ ':' ::
          ((padded 2 (ofDay / 60 % 60)).toList ++ ':' :: ((padded 2 (ofDay % 60)).toList ++
            ((renderFraction t.nanos).toList ++ '+' :: zeroOffset)))))) := by
  have hyear : (0 ≤ year && year ≤ 9999) = true := by
    have hyear := h.year
    rw [Timestamp.year, hdate] at hyear
    simpa using hyear
  have hleap : ¬ t.nanos ≥ 1000000000 := Nat.not_le.mpr h.nanos
  unfold renderOffset renderWith
  have hdash : "-".toList = ['-'] := rfl
  have hcolon : ":".toList = [':'] := rfl
  have hbetween : "T".toList = ['T'] := rfl
  have hzone : "+00:00".toList = '+' :: zeroOffset := rfl
  simp only [hdate, hofDay, hyear, hleap, if_true, if_false, Nat.add_zero, String.toList_append,
    List.append_assoc, hdash, hcolon, hbetween, hzone, List.cons_append, List.nil_append]

/-- A point in time is the beginning of its day and the seconds since then. -/
theorem seconds_eq {t : Timestamp} {ofDay : Nat} (h : (t.seconds.fmod 86400).toNat = ofDay) :
    t.seconds = t.seconds.fdiv 86400 * 86400 + ofDay ∧ ofDay < 86400 := by
  rw [Int.fmod_eq_emod_of_nonneg _ (by decide)] at h
  rw [Int.fdiv_eq_ediv_of_nonneg _ (by decide)]
  omega

/-- The text of a point in time reads back as the point in time. -/
theorem parse?_renderOffset {t : Timestamp} (h : t.IsOrdinary) :
    parse? t.renderOffset = some t := by
  obtain ⟨⟨year, month, day⟩, hdate⟩ : ∃ date, dateOfDays (t.seconds.fdiv 86400) = date := ⟨_, rfl⟩
  obtain ⟨ofDay, hofDay⟩ : ∃ ofDay, (t.seconds.fmod 86400).toNat = ofDay := ⟨_, rfl⟩
  obtain ⟨⟨hmonth, hday⟩, hdays⟩ := isDate_dateOfDays hdate
  obtain ⟨hseconds, hofDay'⟩ := seconds_eq hofDay
  have hlast := daysInMonth_le year month
  have hyear := h.year
  rw [Timestamp.year, hdate] at hyear
  have hfits : (year.toNat : Int) = year := by omega
  unfold parse? parseWith?
  generalize htext : t.renderOffset.toList = text
  rw [toList_renderOffset h hdate hofDay] at htext
  subst htext
  -- each number fits into its place, so the parts are read in turn as they were written
  refine bind_readDigits (by decide) (by omega) ?_
  refine bind_readOne (by decide) ?_
  refine bind_readDigits (by decide) (by omega) ?_
  refine bind_readOne (by decide) ?_
  refine bind_readDigits (by decide) (by omega) ?_
  refine bind_readOne (by decide) ?_
  refine bind_readDigits (by decide) (by omega) ?_
  refine bind_readOne (by decide) ?_
  refine bind_readDigits (by decide) (by omega) ?_
  refine bind_readOne (by decide) ?_
  refine bind_readDigits (by decide) (by omega) ?_
  refine Option.bind_eq_some_iff.mpr ⟨_, readFraction_renderFraction h.nanos _, ?_⟩
  refine Option.bind_eq_some_iff.mpr ⟨(0, []), by decide, ?_⟩
  have hbounds : ofDay / 3600 ≤ 23 ∧ ofDay / 60 % 60 ≤ 59 ∧ ofDay % 60 ≤ 60 ∧ ofDay % 60 ≠ 60 := by
    omega
  have hsum : t.seconds.fdiv 86400 * 86400 +
      ((ofDay : Int) / 3600 * 3600 + ofDay / 60 % 60 * 60 + ofDay % 60) = t.seconds := by omega
  simp [hfits, hmonth, hday, hdays, hbounds, hsum]

end CodeAtlas.Timestamp
