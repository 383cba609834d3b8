import Zeo.Numeric.Integer

/-!
# Rounding to powers of ten

`round`, `floor`, `ceil` and `truncate` with a negative digit count share one routine, which works
on the magnitude and puts the sign back. The digit count is a word, and the exponent of the power of
ten is its negation cut down to 32 bits.
-/

namespace Zeo.Numeric

open Int

inductive RoundMode where
  /-- `round`. -/
  | halfAway
  | floor
  | ceil
  /-- `truncate`. -/
  | trunc
deriving DecidableEq

inductive HalfMode where
  /-- `half: :up`, away from zero. -/
  | up
  /-- `half: :down`, towards zero. -/
  | down
  | even
deriving DecidableEq

inductive Digits where
  | int (n : Word)
  | other (className : String)
deriving DecidableEq

/-- `coerce_error`, by the name of the argument's class. -/
def coerceError (className into : String) : String := s!"{className} can't be coerced into {into}"

/-- `div_ceil` of big integers. -/
def divCeil (m p : Int) : Int := -(-m).fdiv p

def roundHalfMag (m p : Int) (half : HalfMode) : Int :=
  let r := m.tmod p
  let base := m - r
  match compare (r * 2) p with
  | .lt => base
  | .gt => base + p
  | .eq =>
    match half with
    | .up => base + p
    | .down => base
    | .even => if base.tdiv p % 2 = 0 then base else base + p

/-- The part of `int_round_family` behind the power of ten. -/
def roundTo (mode : RoundMode) (half : HalfMode) (a p : Int) : Int :=
  let negative := decide (a < 0)
  let m : Int := a.natAbs
  let rounded :=
    match mode with
    | .halfAway => roundHalfMag m p half
    | .trunc => m.tdiv p * p
    | .floor => if negative then divCeil m p * p else m.tdiv p * p
    | .ceil => if negative then m.tdiv p * p else divCeil m p * p
  if negative then -rounded else rounded

def intRoundFamily (recv : IntValue) (ndigits : Option Digits) (mode : RoundMode)
    (half : HalfMode) : Except String IntValue :=
  match ndigits with
  | some (.other className) => .error (coerceError className "Integer")
  | none => .ok recv
  | some (.int n) =>
    if 0 ≤ n.toInt then .ok recv
    -- the negation and the cast wrap
    else .ok (intValue (roundTo mode half (toBigint recv) (10 ^ ((-n).setWidth 32).toNat)))

def IsFloor (n p r : Int) : Prop := p ∣ r ∧ r ≤ n ∧ ∀ k, p ∣ k → k ≤ n → k ≤ r

def IsCeil (n p r : Int) : Prop := p ∣ r ∧ n ≤ r ∧ ∀ k, p ∣ k → n ≤ k → r ≤ k

/-- How a half rule decides between two multiples that are equally near. -/
def Prefers (half : HalfMode) (p r k : Int) : Prop :=
  match half with
  | .up => |k| < |r|
  | .down => |r| < |k|
  | .even => Even (r / p)

def IsNearest (half : HalfMode) (n p r : Int) : Prop :=
  p ∣ r ∧ ∀ k, p ∣ k → k ≠ r → |n - r| < |n - k| ∨ |n - r| = |n - k| ∧ Prefers half p r k

def Rounds (mode : RoundMode) (half : HalfMode) (n p r : Int) : Prop :=
  match mode with
  | .halfAway => IsNearest half n p r
  | .floor => IsFloor n p r
  | .ceil => IsCeil n p r
  | .trunc => if 0 ≤ n then IsFloor n p r else IsCeil n p r

variable {p : Int} {n r s : Int}

theorem IsFloor.unique (first : IsFloor n p r) (second : IsFloor n p s) : r = s :=
  le_antisymm (second.2.2 r first.1 first.2.1) (first.2.2 s second.1 second.2.1)

theorem IsCeil.unique (first : IsCeil n p r) (second : IsCeil n p s) : r = s :=
  le_antisymm (first.2.2 s second.1 second.2.1) (second.2.2 r first.1 first.2.1)

theorem multiple_apart (positive : 0 < p) (a b : Int) :
    a = b ∨ p * a + p ≤ p * b ∨ p * b + p ≤ p * a := by
  rcases lt_trichotomy a b with below | same | above
  · have step : p * (a + 1) ≤ p * b := mul_le_mul_of_nonneg_left below positive.le
    exact .inr (.inl (by linarith))
  · exact .inl same
  · have step : p * (b + 1) ≤ p * a := mul_le_mul_of_nonneg_left above positive.le
    exact .inr (.inr (by linarith))

variable {half : HalfMode}

theorem IsNearest.unique (positive : 0 < p)
    (first : IsNearest half n p r) (second : IsNearest half n p s) : r = s := by
  by_contra different
  obtain ⟨⟨a, rfl⟩, nearest⟩ := first
  obtain ⟨⟨b, rfl⟩, nearest'⟩ := second
  have one := nearest _ (Dvd.intro b rfl) (Ne.symm different)
  have two := nearest' _ (Dvd.intro a rfl) different
  have tie : |n - p * a| = |n - p * b| := by
    rcases one with closer | ⟨same, _⟩
    · rcases two with closer' | ⟨same, _⟩
      · exact absurd closer (not_lt.mpr closer'.le)
      · exact same.symm
    · exact same
  have prefers : Prefers half p (p * a) (p * b) := by
    rcases one with closer | ⟨_, prefers⟩
    · exact absurd tie closer.ne
    · exact prefers
  have prefers' : Prefers half p (p * b) (p * a) := by
    rcases two with closer | ⟨_, prefers⟩
    · exact absurd tie.symm closer.ne
    · exact prefers
  cases half with
  | up | down => exact absurd prefers (not_lt.mpr (le_of_lt prefers'))
  | even =>
    -- two multiples that are equally near have no third between them
    have evenA : Even a := by
      have even : Even (p * a / p) := prefers
      rwa [mul_ediv_cancel_left a positive.ne'] at even
    have evenB : Even b := by
      have even : Even (p * b / p) := prefers'
      rwa [mul_ediv_cancel_left b positive.ne'] at even
    obtain ⟨x, rfl⟩ := evenA
    obtain ⟨y, rfl⟩ := evenB
    have between := nearest (p * (x + y)) (Dvd.intro _ rfl)
    have apart : x ≠ y := by
      rintro rfl
      exact different rfl
    have middle : p * (x + y) = n := by
      have twice : 2 * n = p * (x + x) + p * (y + y) := by
        rcases abs_eq_abs.mp tie with same | mirrored
        · exact absurd (by linarith : p * (x + x) = p * (y + y)) different
        · linarith
      linarith
    have other : p * (x + y) ≠ p * (x + x) := by
      intro same
      have cancelled := mul_left_cancel₀ positive.ne' same
      exact apart (by linarith)
    have zero := between other
    rw [middle, sub_self, abs_zero] at zero
    rcases zero with negative | ⟨none, _⟩
    · exact absurd (abs_nonneg _) (not_le.mpr negative)
    · rw [abs_eq_zero] at none
      exact other (by linarith)

theorem Rounds.unique {mode : RoundMode} (positive : 0 < p)
    (first : Rounds mode half n p r) (second : Rounds mode half n p s) : r = s := by
  cases mode with
  | halfAway => exact IsNearest.unique positive first second
  | floor => exact IsFloor.unique first second
  | ceil => exact IsCeil.unique first second
  | trunc =>
    unfold Rounds at first second
    by_cases sign : 0 ≤ n
    · rw [if_pos sign] at first second
      exact first.unique second
    · rw [if_neg sign] at first second
      exact first.unique second

variable {m : Int}

theorem tdiv_mul_self (nonnegative : 0 ≤ m) : m.tdiv p * p = m - m % p := by
  rw [tdiv_eq_ediv_of_nonneg nonnegative, ediv_mul_self]

theorem divCeil_mul_self (positive : 0 < p) : divCeil m p * p = m + (-m) % p := by
  rw [divCeil, fdiv_eq_ediv_of_nonneg _ positive.le, neg_mul, ediv_mul_self]
  omega

variable (half : HalfMode)

variable (n : Int)

theorem roundTo_floor (positive : 0 < p) : roundTo .floor half n p = n - n % p := by
  unfold roundTo
  by_cases negative : n < 0
  · have magnitude : n.natAbs = -n := by omega
    simp only [decide_eq_true negative, if_true, magnitude]
    rw [divCeil_mul_self positive, neg_neg]
    omega
  · have magnitude : n.natAbs = n := by omega
    simp only [decide_eq_false negative, magnitude]
    exact tdiv_mul_self (by omega)

theorem roundTo_ceil (positive : 0 < p) : roundTo .ceil half n p = n + (-n) % p := by
  unfold roundTo
  by_cases negative : n < 0
  · have magnitude : n.natAbs = -n := by omega
    simp only [decide_eq_true negative, if_true, magnitude]
    rw [tdiv_mul_self (by omega)]
    omega
  · have magnitude : n.natAbs = n := by omega
    simp only [decide_eq_false negative, magnitude]
    exact divCeil_mul_self positive

/-- `truncate` is the one of the two that is nearer to zero. -/
theorem roundTo_trunc (n p : Int) :
    roundTo .trunc half n p = roundTo (if 0 ≤ n then .floor else .ceil) half n p := by
  unfold roundTo
  by_cases negative : n < 0
  · rw [if_neg (not_le.mpr negative)]
    simp only [decide_eq_true negative, if_true]
  · rw [if_pos (not_lt.mp negative)]
    simp only [decide_eq_false negative, Bool.false_eq_true, if_false]

/-- Whether a half rule takes a magnitude that lies halfway up. -/
def TieUp (m p : Int) : Prop :=
  match half with
  | .up => True
  | .down => False
  | .even => ¬ Even (m / p)

/-- Whether a magnitude goes up to the next multiple. -/
def Up (m p : Int) : Prop :=
  p < m % p * 2 ∨ m % p * 2 = p ∧ TieUp half m p

instance (half : HalfMode) (m p : Int) : Decidable (TieUp half m p) :=
  match half with
  | .up => inferInstanceAs (Decidable True)
  | .down => inferInstanceAs (Decidable False)
  | .even => inferInstanceAs (Decidable (¬ Even (m / p)))

instance (half : HalfMode) (m p : Int) : Decidable (Up half m p) :=
  inferInstanceAs (Decidable (_ ∨ _))

theorem roundHalfMag_eq (nonnegative : 0 ≤ m) (positive : 0 < p) :
    roundHalfMag m p half = if Up half m p then m - m % p + p else m - m % p := by
  have base : (m - m % p).tdiv p = m / p := by
    rw [← ediv_mul_self, mul_tdiv_cancel _ positive.ne']
  unfold roundHalfMag
  rw [tmod_eq_emod_of_nonneg nonnegative]
  dsimp only
  rw [base]
  rcases lt_trichotomy (m % p * 2) p with below | tie | above
  · have down : ¬ Up half m p := by
      rintro (above | ⟨same, _⟩)
      · exact absurd above (not_lt.mpr below.le)
      · exact absurd same below.ne
    rw [compare_lt_iff_lt.mpr below, if_neg down]
  · have split : Up half m p ↔ TieUp half m p := by
      simp only [Up, tie, lt_irrefl, true_and, false_or]
    rw [compare_eq_iff_eq.mpr tie]
    simp only [split]
    cases half with
    | up | down => simp [TieUp]
    | even =>
      have odd : TieUp .even m p ↔ ¬ m / p % 2 = 0 := not_congr even_iff
      by_cases even : m / p % 2 = 0
      · rw [if_pos even, if_neg fun up => odd.mp up even]
      · rw [if_neg even, if_pos (odd.mpr even)]
  · have up : Up half m p := .inl above
    rw [compare_gt_iff_gt.mpr above, if_pos up]

theorem roundTo_halfAway (n p : Int) :
    roundTo .halfAway half n p =
      if n < 0 then -roundHalfMag (n.natAbs : Int) p half else roundHalfMag (n.natAbs : Int) p half := by
  unfold roundTo
  by_cases negative : n < 0 <;> simp

theorem isFloor_sub_emod (positive : 0 < p) : IsFloor n p (n - n % p) := by
  have rest := emod_nonneg n positive.ne'
  have short := emod_lt_of_pos n positive
  refine ⟨⟨n / p, by rw [← ediv_mul_self, mul_comm]⟩, by omega, ?_⟩
  rintro k ⟨c, rfl⟩ below
  have splits := mul_ediv_add_emod n p
  rcases multiple_apart positive c (n / p) with same | less | more
  · rw [same]
    omega
  · omega
  · omega

theorem isCeil_add_emod (positive : 0 < p) : IsCeil n p (n + (-n) % p) := by
  obtain ⟨divides, below, largest⟩ := isFloor_sub_emod (-n) positive
  refine ⟨?_, by omega, ?_⟩
  · have mirrored := (dvd_neg).mpr divides
    rwa [neg_sub, sub_neg_eq_add, add_comm] at mirrored
  · intro k multiple above
    have mirrored := largest (-k) (dvd_neg.mpr multiple) (by omega)
    omega

theorem IsNearest.neg {n r : Int} (nearest : IsNearest half n p r) :
    IsNearest half (-n) p (-r) := by
  obtain ⟨divides, least⟩ := nearest
  refine ⟨dvd_neg.mpr divides, fun k multiple other => ?_⟩
  have mirrored := least (-k) (dvd_neg.mpr multiple) (by omega)
  have left : |-n - -r| = |n - r| := by
    rw [← abs_neg]
    congr 1
    ring
  have right : |-n - k| = |n - -k| := by
    rw [← abs_neg]
    congr 1
    ring
  rw [left, right]
  refine mirrored.imp id fun tie => ⟨tie.1, ?_⟩
  have prefers := tie.2
  cases half with
  | up =>
    change |k| < |-r|
    rwa [abs_neg, ← abs_neg k]
  | down =>
    change |-r| < |k|
    rwa [abs_neg, ← abs_neg k]
  | even =>
    change Even (-r / p)
    rw [neg_ediv_of_dvd divides]
    exact Even.neg prefers

/-- Only the two multiples around a number are less than one step away. -/
theorem multiple_near (m : Int) (positive : 0 < p) {k : Int} (multiple : p ∣ k) :
    k = p * (m / p) ∨ k = p * (m / p) + p ∨ p ≤ |m - k| := by
  obtain ⟨c, rfl⟩ := multiple
  have rest := emod_nonneg m positive.ne'
  have short := emod_lt_of_pos m positive
  have splits := mul_ediv_add_emod m p
  rcases multiple_apart positive c (m / p) with rfl | less | more
  · exact .inl rfl
  · exact .inr (.inr (le_abs.mpr (.inl (by omega))))
  · have next : p * (m / p + 1) = p * (m / p) + p := by ring
    rcases multiple_apart positive c (m / p + 1) with rfl | less | more
    · exact .inr (.inl next)
    · omega
    · exact .inr (.inr (le_abs.mpr (.inr (by omega))))

theorem isNearest_roundHalfMag (nonnegative : 0 ≤ m)
    (positive : 0 < p) : IsNearest half m p (roundHalfMag m p half) := by
  have rest := emod_nonneg m positive.ne'
  have short := emod_lt_of_pos m positive
  have splits := mul_ediv_add_emod m p
  have base : m - m % p = p * (m / p) := by omega
  have grounded : 0 ≤ p * (m / p) := mul_nonneg positive.le (ediv_nonneg nonnegative positive.le)
  have next : p * (m / p) + p = p * (m / p + 1) := by ring
  have low : |m - p * (m / p)| = m % p := by
    rw [abs_of_nonneg (by omega)]
    omega
  have high : |m - (p * (m / p) + p)| = p - m % p := by
    rw [abs_of_nonpos (by omega)]
    omega
  rw [roundHalfMag_eq half nonnegative positive]
  by_cases up : Up half m p
  · rw [if_pos up, base]
    have half' : p ≤ m % p * 2 := by
      rcases up with above | ⟨tie, _⟩ <;> omega
    refine ⟨⟨m / p + 1, next⟩, fun k multiple other => ?_⟩
    rcases multiple_near m positive multiple with rfl | rfl | far
    · rcases up with above | ⟨tie, taken⟩
      · exact .inl (by omega)
      · refine .inr ⟨by omega, ?_⟩
        cases half with
        | up =>
          change |p * (m / p)| < |p * (m / p) + p|
          rw [abs_of_nonneg grounded, abs_of_nonneg (by omega)]
          omega
        | down => exact absurd taken id
        | even =>
          change Even ((p * (m / p) + p) / p)
          rw [next, mul_ediv_cancel_left _ positive.ne', even_add_one]
          exact taken
    · exact absurd rfl other
    · exact .inl (by omega)
  · rw [if_neg up, base]
    have atMost : m % p * 2 ≤ p := by
      by_contra above
      exact up (.inl (by omega))
    refine ⟨⟨m / p, rfl⟩, fun k multiple other => ?_⟩
    rcases multiple_near m positive multiple with rfl | rfl | far
    · exact absurd rfl other
    · by_cases halfway : m % p * 2 = p
      · have untaken : ¬ TieUp half m p := fun taken => up (.inr ⟨halfway, taken⟩)
        refine .inr ⟨by omega, ?_⟩
        cases half with
        | up => exact absurd trivial untaken
        | down =>
          change |p * (m / p)| < |p * (m / p) + p|
          rw [abs_of_nonneg grounded, abs_of_nonneg (by omega)]
          omega
        | even =>
          change Even (p * (m / p) / p)
          rw [mul_ediv_cancel_left _ positive.ne']
          exact not_not.mp untaken
      · exact .inl (by omega)
    · exact .inl (by omega)

theorem roundTo_rounds (mode : RoundMode) (half : HalfMode) (n : Int) (positive : 0 < p) :
    Rounds mode half n p (roundTo mode half n p) := by
  cases mode with
  | floor =>
    rw [roundTo_floor half n positive]
    exact isFloor_sub_emod n positive
  | ceil =>
    rw [roundTo_ceil half n positive]
    exact isCeil_add_emod n positive
  | trunc =>
    unfold Rounds
    rw [roundTo_trunc]
    by_cases sign : 0 ≤ n
    · rw [if_pos sign, if_pos sign, roundTo_floor half n positive]
      exact isFloor_sub_emod n positive
    · rw [if_neg sign, if_neg sign, roundTo_ceil half n positive]
      exact isCeil_add_emod n positive
  | halfAway =>
    rw [roundTo_halfAway]
    by_cases negative : n < 0
    · have magnitude : n.natAbs = -n := by omega
      rw [if_pos negative, magnitude]
      have nearest := (isNearest_roundHalfMag half (m := -n) (by omega) positive).neg
      rwa [neg_neg] at nearest
    · have magnitude : n.natAbs = n := by omega
      rw [if_neg negative, magnitude]
      exact isNearest_roundHalfMag half (by omega) positive

/-- Rounding to a smaller step comes to the same: what the larger step takes away, the smaller one
takes away too. -/
def Unharmed (mode : RoundMode) (half : HalfMode) (n p q : Int) : Prop :=
  match mode with
  | .floor => n % p < q
  | .ceil => (-n) % p < q
  | .trunc => (n.natAbs : Int) % p < q
  | .halfAway => (n.natAbs : Int) % p < q ∧ ¬ Up half n.natAbs q ∨
      p - q ≤ (n.natAbs : Int) % p ∧ Up half n.natAbs q

instance (mode : RoundMode) (half : HalfMode) (n p q : Int) : Decidable (Unharmed mode half n p q) :=
  match mode with
  | .floor => inferInstanceAs (Decidable (n % p < q))
  | .ceil => inferInstanceAs (Decidable ((-n) % p < q))
  | .trunc => inferInstanceAs (Decidable ((n.natAbs : Int) % p < q))
  | .halfAway => inferInstanceAs (Decidable (_ ∨ _))

section Cut

variable {p q : Int} (positive : 0 < q) (divides : q ∣ p) (large : 0 < p)

include positive divides large

variable (half : HalfMode)

theorem roundTo_floor_eq_iff (n : Int) :
    roundTo .floor half n q = roundTo .floor half n p ↔ n % p < q := by
  rw [roundTo_floor half n positive, roundTo_floor half n large,
    ← emod_eq_emod_iff positive divides large n]
  omega

theorem roundTo_ceil_eq_iff (n : Int) :
    roundTo .ceil half n q = roundTo .ceil half n p ↔ (-n) % p < q := by
  rw [roundTo_ceil half n positive, roundTo_ceil half n large,
    ← emod_eq_emod_iff positive divides large (-n)]
  omega

theorem roundHalfMag_eq_iff (nonnegative : 0 ≤ m)
    (gap : p = q ∨ 4 * q ≤ p) : roundHalfMag m q half = roundHalfMag m p half ↔
      m % p < q ∧ ¬ Up half m q ∨ p - q ≤ m % p ∧ Up half m q := by
  have short := emod_lt_of_pos m large
  have rest' := emod_nonneg m positive.ne'
  have short' := emod_lt_of_pos m positive
  rcases gap with rfl | gap
  · have either := em (Up half m p)
    simp only [true_iff]
    rcases either with up | down
    · exact .inr ⟨by omega, up⟩
    · exact .inl ⟨short, down⟩
  · -- a remainder in the first or the last of the small steps decides for the large one
    have first : m % p < q → ¬ Up half m p := by
      rintro low (above | ⟨tie, _⟩) <;> omega
    have last : p - q ≤ m % p → Up half m p := fun high => .inl (by omega)
    have lastRest : p - q ≤ m % p → m % q = m % p - (p - q) := by
      intro high
      rw [← emod_emod_of_dvd m divides]
      have shifted : (m % p - (p - q)) % q = m % p % q := by
        rw [sub_emod, emod_eq_zero_of_dvd (dvd_sub divides dvd_rfl)]
        simp
      rw [← shifted]
      exact emod_eq_of_lt (by omega) (by omega)
    have firstRest := emod_eq_emod_iff positive divides large m
    rw [roundHalfMag_eq half nonnegative positive, roundHalfMag_eq half nonnegative large]
    by_cases up : Up half m q <;> by_cases up' : Up half m p
    · rw [if_pos up, if_pos up']
      simp only [up, not_true_eq_false, and_false, and_true, false_or]
      constructor
      · intro same
        omega
      · intro high
        omega
    · rw [if_pos up, if_neg up']
      simp only [up, not_true_eq_false, and_false, and_true, false_or]
      exact iff_of_false (by omega) fun high => up' (last high)
    · rw [if_neg up, if_pos up']
      simp only [up, not_false_eq_true, and_true, and_false, or_false]
      exact iff_of_false (by omega) fun low => first low up'
    · rw [if_neg up, if_neg up']
      simp only [up, not_false_eq_true, and_true, and_false, or_false]
      omega

/-- The smaller step comes to the same exactly when it does no harm. -/
theorem roundTo_eq_iff (mode : RoundMode) (half : HalfMode) (n : Int)
    (gap : p = q ∨ 4 * q ≤ p) :
    roundTo mode half n q = roundTo mode half n p ↔ Unharmed mode half n p q := by
  cases mode with
  | floor => exact roundTo_floor_eq_iff positive divides large half n
  | ceil => exact roundTo_ceil_eq_iff positive divides large half n
  | trunc =>
    rw [roundTo_trunc, roundTo_trunc half n p]
    unfold Unharmed
    by_cases sign : 0 ≤ n
    · have magnitude : n.natAbs = n := by omega
      rw [if_pos sign, magnitude]
      exact roundTo_floor_eq_iff positive divides large half n
    · have magnitude : n.natAbs = -n := by omega
      rw [if_neg sign, magnitude]
      exact roundTo_ceil_eq_iff positive divides large half n
  | halfAway =>
    have magnitude := roundHalfMag_eq_iff positive divides large half
      (m := n.natAbs) (natCast_nonneg _) gap
    rw [roundTo_halfAway, roundTo_halfAway]
    unfold Unharmed
    rw [← magnitude]
    by_cases negative : n < 0
    · rw [if_pos negative, if_pos negative]
      exact neg_inj
    · rw [if_neg negative, if_neg negative]

end Cut

theorem places_eq (d : Nat) : ((-BitVec.ofInt 64 (-(d : Int))).setWidth 32).toNat = d % 2 ^ 32 := by
  have back : -BitVec.ofInt 64 (-d) = BitVec.ofNat 64 d := by
    rw [← BitVec.ofInt_neg, neg_neg, BitVec.ofInt_natCast]
  rw [back]
  exact Nat.mod_mod_of_dvd d (Nat.pow_dvd_pow 2 (by decide))

/-- A power of ten that was cut down divides the whole one, and is the same or far below. -/
theorem cut_power (d : Nat) : (10 : Int) ^ (d % 2 ^ 32) ∣ 10 ^ d ∧
    ((10 : Int) ^ d = 10 ^ (d % 2 ^ 32) ∨ 4 * (10 : Int) ^ (d % 2 ^ 32) ≤ 10 ^ d) := by
  refine ⟨pow_dvd_pow 10 (Nat.mod_le d _), ?_⟩
  by_cases small : d < 2 ^ 32
  · rw [Nat.mod_eq_of_lt small]
    exact .inl rfl
  · have below : d % 2 ^ 32 + 1 ≤ d := by
      omega
    have room : (10 : Int) ^ (d % 2 ^ 32 + 1) ≤ 10 ^ d := pow_le_pow_right₀ (by decide) below
    have positive : (0 : Int) < 10 ^ (d % 2 ^ 32) := Int.pow_pos (by decide)
    exact .inr (by omega)

theorem isNearest_zero (half : HalfMode) {n : Int} (small : 2 * |n| < p) :
    IsNearest half n p 0 := by
  refine ⟨dvd_zero p, ?_⟩
  rintro k ⟨c, rfl⟩ other
  have size := abs_nonneg n
  have far : p ≤ |p * c| := by
    rw [abs_mul, abs_of_pos (by omega)]
    have nonzero : c ≠ 0 := by
      rintro rfl
      exact other (mul_zero p)
    exact le_mul_of_one_le_right (by omega) (one_le_abs nonzero)
  have triangle := abs_sub_abs_le_abs_sub (p * c) n
  rw [abs_sub_comm] at triangle
  rw [sub_zero]
  exact .inl (by omega)

structure RoundsTo (mode : RoundMode) (half : HalfMode) (n : Int) (d : Nat) (r : IntValue) :
    Prop where
  canonical : r.Canonical
  rounds : Rounds mode half n (10 ^ d) (toBigint r)
  /-- `round` of a number that is small beside the step is zero. -/
  zero : mode = .halfAway → 2 * |n| < 10 ^ d → toBigint r = 0

/-- Rounding to a negative digit count does what its mode asks for exactly when cutting the exponent
down to 32 bits does no harm. -/
theorem intRoundFamily_rounds_iff (recv : IntValue) (mode : RoundMode) (half : HalfMode) (d : Nat)
    (positive : 0 < d) (accepted : d ≤ 2 ^ 63) :
    (∃ r, intRoundFamily recv (some (.int (BitVec.ofInt 64 (-d)))) mode half = .ok r ∧
      RoundsTo mode half (toBigint recv) d r) ↔
      Unharmed mode half (toBigint recv) (10 ^ d) (10 ^ (d % 2 ^ 32)) := by
  have digits : (BitVec.ofInt 64 (-d)).toInt = -d := toInt_ofInt ⟨by omega, by omega⟩
  have whole : (0 : Int) < 10 ^ d := Int.pow_pos (by decide)
  have step : (0 : Int) < 10 ^ (d % 2 ^ 32) := Int.pow_pos (by decide)
  obtain ⟨divides, gap⟩ := cut_power d
  have answer : intRoundFamily recv (some (.int (BitVec.ofInt 64 (-d)))) mode half =
      .ok (intValue (roundTo mode half (toBigint recv) (10 ^ (d % 2 ^ 32)))) := by
    rw [intRoundFamily, if_neg (by omega), places_eq]
  have asked := roundTo_rounds mode half (toBigint recv) whole
  rw [← roundTo_eq_iff step divides whole mode half _ gap, answer]
  generalize toBigint recv = n at asked
  obtain ⟨value, canonical⟩ := intValue_answers (roundTo mode half n (10 ^ (d % 2 ^ 32)))
  constructor
  · rintro ⟨r, answered, promised⟩
    cases answered
    have rounds := promised.rounds
    rw [value] at rounds
    exact rounds.unique whole asked
  · intro same
    rw [← same] at asked
    refine ⟨_, rfl, canonical, by rwa [value], fun nearest small => ?_⟩
    subst nearest
    rw [value]
    exact asked.unique whole (isNearest_zero half small)

/-- `1250.round(-2, half: :even)` is 1200. -/
theorem intRoundFamily_rounds_even :
    ∃ r, intRoundFamily (.int 1250) (some (.int (BitVec.ofInt 64 (-(2 : Nat))))) .halfAway .even =
      .ok r ∧ RoundsTo .halfAway .even 1250 2 r :=
  (intRoundFamily_rounds_iff (.int 1250) .halfAway .even 2 (by decide) (by decide)).mpr (by decide)

/-- `5.floor(-2**32)` is 5, which is no multiple of that power of ten. -/
theorem intRoundFamily_cut :
    ¬ ∃ r, intRoundFamily (.int 5) (some (.int (BitVec.ofInt 64 (-(2 ^ 32 : Nat))))) .floor .up =
      .ok r ∧ RoundsTo .floor .up 5 (2 ^ 32) r := by
  rintro ⟨r, answered, promised⟩
  cases answered
  have divides : (10 : Int) ∣ 5 := (dvd_pow_self 10 (by decide)).trans promised.rounds.1
  exact absurd divides (by decide)

end Zeo.Numeric
