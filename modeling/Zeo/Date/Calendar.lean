import Mathlib.Algebra.Order.Ring.Rat
import Mathlib.Tactic.IntervalCases

/-!
# Civil dates and day numbers

The conversions of `Date` between day numbers, civil dates, days of the year and ISO weeks. Years
are counted from March, so that the leap day is the last day of its year: a day number is the start
of such a year, the start of a month in it, and a day.

The machine integers are exact for day numbers within 2 ^ 55, and so is their conversion to floating
point where it is compared with a finite start of the reform that they can reach.
-/

namespace Zeo.Date

/-- The day a calendar changes from the Julian to the Gregorian rule, as a floating-point number. -/
inductive Start where
  | day (jd : ℚ)
  /-- `Date::GREGORIAN`, minus infinity. -/
  | gregorian
  /-- `Date::JULIAN`, plus infinity. -/
  | julian
  | nan

/-- `(jd as f64) < sg`. -/
def Start.after (sg : Start) (jd : Int) : Bool :=
  match sg with
  | .day q => jd < q
  | .julian => true
  | .gregorian | .nan => false

/-- `(jd as f64) >= sg`. -/
def Start.reached (sg : Start) (jd : Int) : Bool :=
  match sg with
  | .day q => q ≤ jd
  | .gregorian => true
  | .julian | .nan => false

abbrev Civil := Int × Int × Int

def gregorianCivilToJd (y m d : Int) : Int :=
  let a := (14 - m) / 12
  let y2 := y + 4800 - a
  let m2 := m + 12 * a - 3
  d + (153 * m2 + 2) / 5 + 365 * y2 + y2 / 4 - y2 / 100 + y2 / 400 - 32045

def gregorianJdToCivil (jd : Int) : Civil :=
  let a := jd + 32044
  let b := (4 * a + 3) / 146097
  let c := a - 146097 * b / 4
  let d2 := (4 * c + 3) / 1461
  let e := c - 1461 * d2 / 4
  let m2 := (5 * e + 2) / 153
  (100 * b + d2 - 4800 + m2 / 10, m2 + 3 - 12 * (m2 / 10), e - (153 * m2 + 2) / 5 + 1)

/-- From a day number within 2 ^ 55 no step of `gregorian_jd_to_civil` leaves the `i64`. -/
theorem gregorianJdToCivil_fits {jd : Int} (near : |jd| ≤ 2 ^ 55) :
    let a := jd + 32044
    let b := (4 * a + 3) / 146097
    let c := a - 146097 * b / 4
    let d2 := (4 * c + 3) / 1461
    let e := c - 1461 * d2 / 4
    let m2 := (5 * e + 2) / 153
    ∀ x ∈ [4 * a + 3, 146097 * b, 4 * c + 3, 1461 * d2, 5 * e + 2, 153 * m2 + 2, 100 * b + d2],
      |x| < 2 ^ 63 := by
  rw [abs_le] at near
  simp only [List.forall_mem_cons, abs_lt]
  refine ⟨?_, ?_, ?_, ?_, ?_, ?_, ?_, List.forall_mem_nil _⟩ <;> omega

/-- Neither does a step of `gregorian_civil_to_jd` from a year within 2 ^ 47. -/
theorem gregorianCivilToJd_fits {y m d : Int} (near : |y| ≤ 2 ^ 47) (month : 1 ≤ m ∧ m ≤ 12)
    (day : |d| ≤ 2 ^ 55) :
    let a := (14 - m) / 12
    let y2 := y + 4800 - a
    let m2 := m + 12 * a - 3
    ∀ x ∈ [153 * m2 + 2, 365 * y2, gregorianCivilToJd y m d], |x| < 2 ^ 63 := by
  rw [abs_le] at near day
  simp only [List.forall_mem_cons, abs_lt, gregorianCivilToJd]
  refine ⟨?_, ?_, ?_, List.forall_mem_nil _⟩ <;> omega

/-- `civil_to_jd`, with the Julian branch in exact arithmetic. -/
def civilToJd (y m d : Int) (sg : Start) : Int :=
  let jd := gregorianCivilToJd y m d
  if sg.after jd then
    let (y2, m2) := if m ≤ 2 then (y - 1, m + 12) else (y, m)
    1461 * (y2 + 4716) / 4 + 306001 * (m2 + 1) / 10000 + d - 1524
  else jd

/-- `jd_to_civil`, with the Julian branch in exact arithmetic. -/
def jdToCivil (jd : Int) (sg : Start) : Civil :=
  if sg.reached jd then gregorianJdToCivil jd
  else
    let b := jd + 1524
    let c := (100 * b - 12210) / 36525
    let d := 1461 * c / 4
    let e := 10000 * (b - d) / 306001
    let dom := b - d - 306001 * e / 10000
    if e ≤ 13 then (c - 4716, e - 1, dom) else (c - 4715, e - 13, dom)

def findFdoy (y : Int) (sg : Start) : Int :=
  match (List.range 31).find? fun d : Nat =>
    jdToCivil (civilToJd y 1 (d + 1) sg) sg = (y, 1, (d : Int) + 1) with
  | some d => civilToJd y 1 (d + 1) sg
  | none => civilToJd y 1 1 sg

def jdYday (jd : Int) (sg : Start) : Int := jd - findFdoy (jdToCivil jd sg).1 sg + 1

def commercialToJd (y w d : Int) (sg : Start) : Int :=
  let base := findFdoy y sg + 3
  base - base % 7 + 7 * (w - 1) + (d - 1)

def jdToCommercial (jd : Int) (sg : Start) : Int × Int × Int :=
  let y2 := (jdToCivil (jd - 3) sg).1
  let next := commercialToJd (y2 + 1) 1 1 sg
  let (cwyear, start) := if jd < next then (y2, commercialToJd y2 1 1 sg) else (y2 + 1, next)
  (cwyear, 1 + (jd - start) / 7, if (jd + 1) % 7 = 0 then 7 else (jd + 1) % 7)

def ordinalJd (y yday : Int) (sg : Start) : Option Int :=
  let first := findFdoy y sg
  let len := findFdoy (y + 1) sg - first
  let yday := if yday < 0 then len + 1 + yday else yday
  if yday < 1 ∨ len < yday then none else some (first + yday - 1)

def commercialJd (y w d : Int) (sg : Start) : Option Int :=
  let d := if d < 0 then 8 + d else d
  if ¬ (1 ≤ d ∧ d ≤ 7) then none
  else
    let w := if w < 0 then
      (jdToCommercial (commercialToJd (y + 1) 1 1 sg - 7) sg).2.1 + 1 + w else w
    let jd := commercialToJd y w d sg
    if jdToCommercial jd sg ≠ (y, w, d) then none else some jd

def Leap (y : Int) : Prop := y % 4 = 0 ∧ (y % 100 ≠ 0 ∨ y % 400 = 0)

instance (y : Int) : Decidable (Leap y) := inferInstanceAs (Decidable (_ ∧ _))

def monthLength (y m : Int) : Int :=
  if m = 2 then if Leap y then 29 else 28
  else if m = 4 ∨ m = 6 ∨ m = 9 ∨ m = 11 then 30
  else 31

structure Valid (y m d : Int) : Prop where
  month : 1 ≤ m ∧ m ≤ 12
  day : 1 ≤ d ∧ d ≤ monthLength y m

def nextDate (y m d : Int) : Civil :=
  if d < monthLength y m then (y, m, d + 1)
  else if m < 12 then (y, m + 1, 1)
  else (y + 1, 1, 1)

/-- The days before a year that is counted from March. -/
def yearStart (y : Int) : Int := 365 * y + y / 4 - y / 100 + y / 400

/-- The days before a month of such a year, March being 0. -/
def monthStart (m : Int) : Int := (153 * m + 2) / 5

theorem yearStart_succ (y : Int) :
    yearStart (y + 1) = yearStart y + if Leap (y + 1) then 366 else 365 := by
  unfold yearStart
  split
  · rename_i leap
    unfold Leap at leap
    omega
  · rename_i plain
    unfold Leap at plain
    omega

theorem yearStart_le {y z : Int} (before : y ≤ z) : yearStart y ≤ yearStart z := by
  unfold yearStart
  omega

theorem monthStart_le {m n : Int} (before : m ≤ n) : monthStart m ≤ monthStart n := by
  unfold monthStart
  omega

/-- A day of a year from March: a month, and a day that the month has. -/
structure Placed (y m d : Int) : Prop where
  month : 0 ≤ m ∧ m ≤ 11
  first : 1 ≤ d
  inMonth : monthStart m + d ≤ monthStart (m + 1)
  inYear : yearStart y + monthStart m + d ≤ yearStart (y + 1)

theorem Placed.unique {y m d y' m' d' : Int} (placed : Placed y m d) (placed' : Placed y' m' d')
    (same : yearStart y + monthStart m + d = yearStart y' + monthStart m' + d') :
    y = y' ∧ m = m' ∧ d = d' := by
  obtain ⟨month, first, inMonth, inYear⟩ := placed
  obtain ⟨month', first', inMonth', inYear'⟩ := placed'
  have positive : 0 ≤ monthStart m ∧ 0 ≤ monthStart m' := by
    unfold monthStart
    omega
  have sameYear : y = y' := by
    rcases lt_trichotomy y y' with before | equal | behind
    · have later := yearStart_le (Int.add_one_le_of_lt before)
      omega
    · exact equal
    · have later := yearStart_le (Int.add_one_le_of_lt behind)
      omega
  subst sameYear
  have sameMonth : m = m' := by
    rcases lt_trichotomy m m' with before | equal | behind
    · have later := monthStart_le (Int.add_one_le_of_lt before)
      omega
    · exact equal
    · have later := monthStart_le (Int.add_one_le_of_lt behind)
      omega
  subst sameMonth
  exact ⟨rfl, rfl, by omega⟩

theorem year_of_day (a : Int) :
    let b := (4 * a + 3) / 146097
    let c := a - 146097 * b / 4
    let d2 := (4 * c + 3) / 1461
    let e := c - 1461 * d2 / 4
    a = yearStart (100 * b + d2) + e ∧ 0 ≤ e ∧ a < yearStart (100 * b + d2 + 1) := by
  intro b c d2 e
  have hb : b = (4 * a + 3) / 146097 := rfl
  have hc : c = a - 146097 * b / 4 := rfl
  have hd2 : d2 = (4 * c + 3) / 1461 := rfl
  have he : e = c - 1461 * d2 / 4 := rfl
  clear_value b c d2 e
  have centuries : 146097 * b / 4 = 36524 * b + b / 4 := by omega
  have years : 1461 * d2 / 4 = 365 * d2 + d2 / 4 := by omega
  have inCentury : 0 ≤ d2 ∧ d2 ≤ 99 := by omega
  have quarters : (100 * b + d2) / 4 = 25 * b + d2 / 4 := by omega
  have hundreds : (100 * b + d2) / 100 = b := by omega
  have cycles : (100 * b + d2) / 400 = b / 4 := by omega
  unfold yearStart
  refine ⟨?_, by omega, ?_⟩
  · rw [quarters, hundreds, cycles]
    omega
  · by_cases last : d2 = 99
    · omega
    · have hundreds' : (100 * b + d2 + 1) / 100 = b := by omega
      have cycles' : (100 * b + d2 + 1) / 400 = b / 4 := by omega
      omega

theorem gregorianJdToCivil_placed (jd : Int) : ∃ y m d, Placed y m d ∧
    jd + 32045 = yearStart y + monthStart m + d ∧
    gregorianJdToCivil jd = (y - 4800 + m / 10, m + 3 - 12 * (m / 10), d) := by
  have year := year_of_day (jd + 32044)
  simp only at year
  generalize hb : (4 * (jd + 32044) + 3) / 146097 = b at year
  generalize hc : jd + 32044 - 146097 * b / 4 = c at year
  generalize hd2 : (4 * c + 3) / 1461 = d2 at year
  generalize he : c - 1461 * d2 / 4 = e at year
  obtain ⟨whole, positive, inside⟩ := year
  have length := yearStart_succ (100 * b + d2)
  have inYear : e ≤ 365 := by
    split at length <;> omega
  refine ⟨100 * b + d2, (5 * e + 2) / 153, e - monthStart ((5 * e + 2) / 153) + 1,
    ⟨?_, ?_, ?_, ?_⟩, ?_, ?_⟩
  · omega
  · unfold monthStart
    omega
  · unfold monthStart
    omega
  · omega
  · omega
  · simp only [gregorianJdToCivil, hb, hc, hd2, he, monthStart]

theorem gregorianCivilToJd_placed {y m : Int} (d : Int) (month : 0 ≤ m ∧ m ≤ 11) :
    gregorianCivilToJd (y - 4800 + m / 10) (m + 3 - 12 * (m / 10)) d =
      yearStart y + monthStart m + d - 32045 := by
  have turn : (14 - (m + 3 - 12 * (m / 10))) / 12 = m / 10 := by omega
  unfold gregorianCivilToJd yearStart monthStart
  simp only [turn]
  have year : y - 4800 + m / 10 + 4800 - m / 10 = y := by omega
  have march : m + 3 - 12 * (m / 10) + 12 * (m / 10) - 3 = m := by omega
  rw [year, march]
  omega

variable {y m d : Int}

theorem placed_iff (month : 0 ≤ m ∧ m ≤ 11) :
    Placed y m d ↔ Valid (y - 4800 + m / 10) (m + 3 - 12 * (m / 10)) d := by
  have length := yearStart_succ y
  have leap : Leap (y - 4800 + 1) ↔ Leap (y + 1) := by
    unfold Leap
    omega
  have fits : Placed y m d ↔ 1 ≤ d ∧ monthStart m + d ≤ monthStart (m + 1) ∧
      yearStart y + monthStart m + d ≤ yearStart (y + 1) :=
    ⟨fun placed => ⟨placed.first, placed.inMonth, placed.inYear⟩,
      fun ⟨first, inMonth, inYear⟩ => ⟨month, first, inMonth, inYear⟩⟩
  have valid {y' m' : Int} (months : 1 ≤ m' ∧ m' ≤ 12) : Valid y' m' d ↔ 1 ≤ d ∧ d ≤ monthLength y' m' :=
    ⟨Valid.day, fun day => ⟨months, day⟩⟩
  rw [fits, valid (by omega)]
  obtain ⟨low, high⟩ := month
  interval_cases m <;> norm_num [monthStart, monthLength, leap] <;> split at length <;> simp [*] <;> omega

theorem Valid.exists_placed (valid : Valid y m d) : ∃ y' m', Placed y' m' d ∧
    y = y' - 4800 + m' / 10 ∧ m = m' + 3 - 12 * (m' / 10) := by
  have month := valid.month
  have march : ∃ y' m', (0 ≤ m' ∧ m' ≤ 11) ∧ y = y' - 4800 + m' / 10 ∧
      m = m' + 3 - 12 * (m' / 10) := by
    by_cases early : m ≤ 2
    · exact ⟨y + 4799, m + 9, by omega, by omega, by omega⟩
    · exact ⟨y + 4800, m - 3, by omega, by omega, by omega⟩
  obtain ⟨y', m', inYear, rfl, rfl⟩ := march
  exact ⟨y', m', (placed_iff inYear).mpr valid, rfl, rfl⟩

theorem gregorian_of_jd (jd : Int) : ∃ y m d, gregorianJdToCivil jd = (y, m, d) ∧ Valid y m d ∧
    gregorianCivilToJd y m d = jd := by
  obtain ⟨y, m, d, placed, whole, civil⟩ := gregorianJdToCivil_placed jd
  refine ⟨_, _, _, civil, (placed_iff placed.month).mp placed, ?_⟩
  rw [gregorianCivilToJd_placed d placed.month]
  omega

theorem gregorian_of_civil (valid : Valid y m d) :
    gregorianJdToCivil (gregorianCivilToJd y m d) = (y, m, d) := by
  obtain ⟨y', m', placed, rfl, rfl⟩ := valid.exists_placed
  rw [gregorianCivilToJd_placed d placed.month]
  obtain ⟨y₂, m₂, d₂, placed₂, whole, civil⟩ :=
    gregorianJdToCivil_placed (yearStart y' + monthStart m' + d - 32045)
  obtain ⟨rfl, rfl, rfl⟩ := placed.unique placed₂ (by omega)
  exact civil

theorem gregorianCivilToJd_day (y m d n : Int) :
    gregorianCivilToJd y m (d + n) = gregorianCivilToJd y m d + n := by
  simp only [gregorianCivilToJd]
  omega

theorem gregorianCivilToJd_month (y : Int) {m : Int} (month : 1 ≤ m ∧ m ≤ 11) :
    gregorianCivilToJd y (m + 1) 1 = gregorianCivilToJd y m 1 + monthLength y m := by
  have length := yearStart_succ (y + 4800 - 1)
  have leap : Leap (y + 4800) ↔ Leap y := by
    unfold Leap
    omega
  simp only [Int.sub_add_cancel, leap, yearStart] at length
  obtain ⟨low, high⟩ := month
  by_cases isLeap : Leap y <;> simp only [isLeap, if_true, if_false] at length <;>
    interval_cases m <;> norm_num [gregorianCivilToJd, monthLength, isLeap] <;> omega

theorem gregorianCivilToJd_year (y : Int) :
    gregorianCivilToJd (y + 1) 1 1 = gregorianCivilToJd y 12 1 + 31 := by
  norm_num [gregorianCivilToJd]
  omega

theorem gregorian_next (valid : Valid y m d) :
    ∃ y' m' d', nextDate y m d = (y', m', d') ∧ Valid y' m' d' ∧
      gregorianCivilToJd y' m' d' = gregorianCivilToJd y m d + 1 := by
  obtain ⟨month, first, last⟩ := valid
  have start := gregorianCivilToJd_day y m 1 (d - 1)
  have whole : 1 + (d - 1) = d := by omega
  rw [whole] at start
  have long (y' m' : Int) : 1 ≤ monthLength y' m' := by
    unfold monthLength
    split_ifs <;> omega
  unfold nextDate
  split_ifs with inMonth inYear
  · exact ⟨y, m, d + 1, rfl, ⟨month, by omega, by omega⟩, gregorianCivilToJd_day y m d 1⟩
  · refine ⟨y, m + 1, 1, rfl, ⟨by omega, Int.le_refl _, long _ _⟩, ?_⟩
    rw [gregorianCivilToJd_month y (by omega)]
    omega
  · obtain rfl : m = 12 := by omega
    refine ⟨y + 1, 1, 1, rfl, ⟨by omega, Int.le_refl _, long _ _⟩, ?_⟩
    rw [gregorianCivilToJd_year]
    have december : monthLength y 12 = 31 := rfl
    omega

@[simp]
theorem jdToCivil_gregorian (jd : Int) : jdToCivil jd .gregorian = gregorianJdToCivil jd := rfl

@[simp]
theorem civilToJd_gregorian (y m d : Int) :
    civilToJd y m d .gregorian = gregorianCivilToJd y m d := rfl

theorem findFdoy_gregorian (y : Int) : findFdoy y .gregorian = gregorianCivilToJd y 1 1 := by
  have first : gregorianJdToCivil (gregorianCivilToJd y 1 1) = (y, 1, 1) :=
    gregorian_of_civil ⟨by omega, Int.le_refl _, by simp [monthLength]⟩
  have found : (List.range 31).find? (fun d : Nat => jdToCivil
      (civilToJd y 1 (d + 1) .gregorian) .gregorian = (y, 1, (d : Int) + 1)) = some 0 := by
    rw [List.find?_range_eq_some]
    refine ⟨by simp [first], by decide, ?_⟩
    intro d before
    omega
  rw [findFdoy, found]
  rfl

theorem january_first (y : Int) : gregorianCivilToJd y 1 1 = yearStart (y + 4799) + 307 - 32045 := by
  norm_num [gregorianCivilToJd, yearStart]
  omega

theorem year_length (y : Int) :
    gregorianCivilToJd y 1 1 + 365 ≤ gregorianCivilToJd (y + 1) 1 1 ∧
      gregorianCivilToJd (y + 1) 1 1 ≤ gregorianCivilToJd y 1 1 + 366 := by
  rw [january_first, january_first]
  unfold yearStart
  omega

theorem year_bounds {jd y : Int} (year : (gregorianJdToCivil jd).1 = y) :
    gregorianCivilToJd y 1 1 ≤ jd ∧ jd < gregorianCivilToJd (y + 1) 1 1 := by
  obtain ⟨y', m, d, placed, whole, civil⟩ := gregorianJdToCivil_placed jd
  rw [civil] at year
  obtain ⟨month, first, inMonth, inYear⟩ := placed
  rw [january_first, january_first]
  by_cases late : 10 ≤ m
  · -- January and February belong to the year from March before
    obtain rfl : y = y' - 4799 := by omega
    have start : 306 ≤ monthStart m := monthStart_le late
    have here : y' - 4799 + 4799 = y' := by omega
    have next : y' - 4799 + 1 + 4799 = y' + 1 := by omega
    rw [here, next]
    omega
  · obtain rfl : y = y' - 4800 := by omega
    have start : 0 ≤ monthStart m := monthStart_le month.1
    have finish : monthStart (m + 1) ≤ 306 := monthStart_le (Int.lt_iff_add_one_le.mp (not_le.mp late))
    have here : y' - 4800 + 1 + 4799 = y' := by omega
    have length := yearStart_succ (y' - 4800 + 4799)
    have last : y' - 4800 + 4799 + 1 = y' := by omega
    rw [last] at length
    rw [here]
    split at length <;> omega

def weekOne (y : Int) : Int :=
  gregorianCivilToJd y 1 1 + 3 - (gregorianCivilToJd y 1 1 + 3) % 7

theorem commercialToJd_gregorian (y w d : Int) :
    commercialToJd y w d .gregorian = weekOne y + 7 * (w - 1) + (d - 1) := by
  rw [commercialToJd, findFdoy_gregorian, weekOne]

/-- A day is in the week that `jd_to_commercial` gives, and that week is one of its year. -/
theorem jdToCommercial_gregorian (jd : Int) : ∃ y w d, jdToCommercial jd .gregorian = (y, w, d) ∧
    (1 ≤ w ∧ w ≤ 53) ∧ (1 ≤ d ∧ d ≤ 7) ∧ commercialToJd y w d .gregorian = jd := by
  have bounds := @year_bounds (jd - 3) _ rfl
  have length := year_length (gregorianJdToCivil (jd - 3)).1
  simp only [jdToCommercial, commercialToJd_gregorian, jdToCivil_gregorian]
  generalize (gregorianJdToCivil (jd - 3)).1 = y at bounds length ⊢
  have monday (y : Int) : weekOne y % 7 = 0 ∧ gregorianCivilToJd y 1 1 - 3 ≤ weekOne y ∧
      weekOne y ≤ gregorianCivilToJd y 1 1 + 3 := by
    unfold weekOne
    omega
  have this := monday y
  have next := monday (y + 1)
  split_ifs <;> refine ⟨_, _, _, rfl, ?_⟩ <;> dsimp only <;> omega

/-- On the proleptic Gregorian calendar every day number has a valid date that maps back to it,
every valid date has a day number that maps back to it, consecutive day numbers have consecutive
dates, and the day of the year and the ISO week of a day map back to it. -/
theorem calendar_inverses :
    (∀ jd, ∃ y m d, jdToCivil jd .gregorian = (y, m, d) ∧ Valid y m d ∧
      civilToJd y m d .gregorian = jd ∧ jdToCivil (jd + 1) .gregorian = nextDate y m d) ∧
    (∀ y m d, Valid y m d → jdToCivil (civilToJd y m d .gregorian) .gregorian = (y, m, d)) ∧
    (∀ jd, ordinalJd (jdToCivil jd .gregorian).1 (jdYday jd .gregorian) .gregorian = some jd) ∧
    ∀ jd, ∃ y w d, jdToCommercial jd .gregorian = (y, w, d) ∧ (1 ≤ w ∧ w ≤ 53) ∧
      (1 ≤ d ∧ d ≤ 7) ∧ commercialJd y w d .gregorian = some jd := by
  refine ⟨?_, fun y m d valid => gregorian_of_civil valid, ?_, ?_⟩
  · intro jd
    obtain ⟨y, m, d, civil, valid, back⟩ := gregorian_of_jd jd
    obtain ⟨y', m', d', next, valid', follows⟩ := gregorian_next valid
    refine ⟨y, m, d, civil, valid, back, ?_⟩
    have there := gregorian_of_civil valid'
    rw [follows, back] at there
    rw [jdToCivil_gregorian, there, next]
  · intro jd
    have bounds := @year_bounds jd _ rfl
    simp only [ordinalJd, jdYday, findFdoy_gregorian, jdToCivil_gregorian]
    generalize gregorianCivilToJd ((gregorianJdToCivil jd).1 + 1) 1 1 = next at bounds ⊢
    generalize gregorianCivilToJd (gregorianJdToCivil jd).1 1 1 = first at bounds ⊢
    have plain : ¬ jd - first + 1 < 0 := by omega
    have inYear : ¬ (jd - first + 1 < 1 ∨ next - first < jd - first + 1) := by omega
    have back : first + (jd - first + 1) - 1 = jd := by omega
    rw [if_neg plain, if_neg inYear, back]
  · intro jd
    obtain ⟨y, w, d, commercial, week, day, back⟩ := jdToCommercial_gregorian jd
    refine ⟨y, w, d, commercial, week, day, ?_⟩
    have plainDay : ¬ d < 0 := by omega
    have plainWeek : ¬ w < 0 := by omega
    simp only [commercialJd, if_neg plainDay, if_neg plainWeek, day, back, commercial]
    simp

end Zeo.Date
