import Zeo.Numeric.Integer

/-!
# Integer powers

The exponent decides how far `int_pow` goes: a negative one makes a Rational of the power by its
magnitude, one past 32 bits answers infinity. The bases 1 and -1 answer an Integer before the sign
of the exponent is looked at.
-/

namespace Zeo.Numeric

open Option

/-- The values that `int_pow` answers. -/
inductive PowValue where
  | integer (v : IntValue)
  | rational (num den : Int)
  /-- `f64::INFINITY`. -/
  | infinity
deriving DecidableEq

/-- How `int_pow` ends. -/
inductive PowOutcome where
  | ok (v : PowValue)
  /-- With a `ZeroDivisionError`. -/
  | zeroDivision (message : String)
  | panic (message : String)
deriving DecidableEq

/-- `i64::checked_pow`. -/
def checkedPow (x : Word) (exp : Nat) : Option Word := toI64 (x.toInt ^ exp)

def rationalNew (num den : Int) : PowOutcome :=
  if den = 0 then .zeroDivision "divided by 0"
  else
    let g : Int := num.gcd den
    let n := num.tdiv g
    let d := den.tdiv g
    if d < 0 then .ok (.rational (-n) (-d)) else .ok (.rational n d)

def unitPow (a b : IntValue) : Option IntValue :=
  if a = .int 1 then some (.int 1)
  else if a = .int (-1) then some (.int (if toBigint b % 2 = 0 then 1 else -1))
  else none

/-- The answer for two words, where the power is one. -/
def wordPow : IntValue → IntValue → Option Word
  | .int x, .int y =>
    if 0 ≤ y.toInt then (toU32 y.toInt).bind fun exp => checkedPow x exp else none
  | _, _ => none

/-- The part of `int_pow` behind the sign of the exponent. -/
def farPow (base exp : Int) : PowValue :=
  match toU32 exp with
  | some exp => .integer (intValue (base ^ exp))
  | none =>
    if base = 0 then .integer (.int 0)
    else if base = 1 then .integer (.int 1)
    else if base = -1 then .integer (.int (if exp % 2 = 0 then 1 else -1))
    else .infinity

/-- `int_pow` where the exponent is not negative. -/
def intPowUp (a b : IntValue) : PowValue :=
  match unitPow a b with
  | some r => .integer r
  | none =>
    match wordPow a b with
    | some r => .integer (.int r)
    | none => farPow (toBigint a) (toBigint b)

/-- `int_pow`. Its call of itself is with an exponent that is not negative. -/
def intPow (a b : IntValue) : PowOutcome :=
  match unitPow a b with
  | some r => .ok (.integer r)
  | none =>
    match wordPow a b with
    | some r => .ok (.integer (.int r))
    | none =>
      if toBigint b < 0 then
        if toBigint a = 0 then .zeroDivision "divided by 0"
        else
          match intPowUp a (intValue (-toBigint b)) with
          | .integer pos => rationalNew 1 (toBigint pos)
          | .rational _ _ => .panic "expected an Integer"
          | .infinity => .panic "expected an Integer, got Infinity"
      else .ok (farPow (toBigint a) (toBigint b))

theorem eq_int_of_canonical {a : IntValue} (canonical : a.Canonical) {x : Word}
    (holds : toBigint a = x.toInt) : a = .int x := by
  cases a with
  | int y => exact congrArg IntValue.int (BitVec.eq_of_toInt_eq holds)
  | bigInt n =>
    have outside := canonical.mp rfl
    rw [holds] at outside
    exact absurd (inWord_toInt x) outside

theorem neg_one_pow_eq (k : Nat) : (-1 : Int) ^ k = if (k : Int) % 2 = 0 then 1 else -1 := by
  by_cases even : (k : Int) % 2 = 0
  · rw [if_pos even]
    exact Even.neg_one_pow (by rw [Nat.even_iff]; omega)
  · rw [if_neg even]
    exact Odd.neg_one_pow (by rw [Nat.odd_iff]; omega)

theorem unitPow_answers {a b r : IntValue} (answered : unitPow a b = some r) :
    Answers r (toBigint a ^ (toBigint b).natAbs) := by
  unfold unitPow at answered
  by_cases one : a = .int 1
  · rw [if_pos one, some.injEq] at answered
    subst one answered
    exact answers_int (one_pow _).symm
  · rw [if_neg one] at answered
    by_cases minus : a = .int (-1)
    · rw [if_pos minus, some.injEq] at answered
      subst minus answered
      apply answers_int
      have power := neg_one_pow_eq (toBigint b).natAbs
      change _ = (-1 : Int) ^ (toBigint b).natAbs
      rw [power]
      by_cases even : toBigint b % 2 = 0
      · rw [if_pos even, if_pos (by omega)]
        rfl
      · rw [if_neg even, if_neg (by omega)]
        rfl
    · rw [if_neg minus] at answered
      cases answered

variable {a b : IntValue}

theorem unitPow_none (large : |toBigint a| ≠ 1) : unitPow a b = none := by
  unfold unitPow
  have one : a ≠ .int 1 := by
    rintro rfl
    exact large rfl
  have minus : a ≠ .int (-1) := by
    rintro rfl
    exact large rfl
  rw [if_neg one, if_neg minus]

theorem wordPow_answers {r : Word} (answered : wordPow a b = some r) :
    0 ≤ toBigint b ∧ Answers (.int r) (toBigint a ^ (toBigint b).toNat) := by
  cases a with
  | bigInt n => cases answered
  | int x =>
    cases b with
    | bigInt n => cases answered
    | int y =>
      simp only [wordPow, ite_none_right_eq_some] at answered
      obtain ⟨nonnegative, checked⟩ := answered
      obtain ⟨exp, narrow, power⟩ := bind_eq_some_iff.mp checked
      simp only [toU32, ite_none_right_eq_some, some.injEq] at narrow
      obtain ⟨_, rfl⟩ := narrow
      simp only [checkedPow, toI64, ite_none_right_eq_some, some.injEq] at power
      obtain ⟨fits, rfl⟩ := power
      exact ⟨nonnegative, answers_int (toInt_ofInt fits)⟩

/-- A power with an exponent that is not negative, or the infinity that stands for it. -/
def UpTo (base : Int) (exp : Nat) (v : PowValue) : Prop :=
  (∃ r, v = .integer r ∧ Answers r (base ^ exp)) ∨ v = .infinity ∧ 1 < |base| ∧ 2 ^ 32 ≤ exp

theorem farPow_upTo (base : Int) {exp : Int} (nonnegative : 0 ≤ exp) :
    UpTo base exp.toNat (farPow base exp) := by
  unfold farPow
  by_cases narrow : exp < 2 ^ 32
  · have fits : toU32 exp = some exp.toNat := if_pos ⟨nonnegative, narrow⟩
    rw [fits]
    exact .inl ⟨_, rfl, intValue_answers _⟩
  · have wide : toU32 exp = none := if_neg fun both => narrow both.2
    have past : 2 ^ 32 ≤ exp.toNat := by omega
    rw [wide]
    by_cases zero : base = 0
    · rw [zero]
      exact .inl ⟨_, rfl, answers_int (zero_pow (by omega)).symm⟩
    · rw [if_neg zero]
      by_cases one : base = 1
      · rw [one]
        exact .inl ⟨_, rfl, answers_int (one_pow _).symm⟩
      · rw [if_neg one]
        by_cases minus : base = -1
        · rw [minus]
          refine .inl ⟨_, rfl, answers_int ?_⟩
          rw [neg_one_pow_eq, Int.toNat_of_nonneg nonnegative]
          split <;> rfl
        · rw [if_neg minus]
          have large : 1 < |base| := by
            rw [lt_abs]
            omega
          exact .inr ⟨rfl, large, past⟩

theorem intPowUp_upTo (a b : IntValue) (nonnegative : 0 ≤ toBigint b) :
    UpTo (toBigint a) (toBigint b).toNat (intPowUp a b) := by
  have magnitude : (toBigint b).natAbs = (toBigint b).toNat := by omega
  unfold intPowUp
  cases unit : unitPow a b with
  | some r =>
    have answers := unitPow_answers unit
    rw [magnitude] at answers
    exact .inl ⟨r, rfl, answers⟩
  | none =>
    cases word : wordPow a b with
    | some r => exact .inl ⟨_, rfl, (wordPow_answers word).2⟩
    | none => exact farPow_upTo (toBigint a) nonnegative

theorem intPow_of_nonneg (a : IntValue) {b : IntValue} (nonnegative : 0 ≤ toBigint b) :
    intPow a b = .ok (intPowUp a b) := by
  unfold intPow intPowUp
  cases unitPow a b with
  | some r => rfl
  | none =>
    cases wordPow a b with
    | some r => rfl
    | none =>
      rw [if_neg (not_lt.mpr nonnegative)]

theorem num_den_of_coprime {x : ℚ} {n d : Int} (positive : 0 < d) (coprime : n.gcd d = 1)
    (value : x = n / d) : x.num = n ∧ x.den = d := by
  rw [value]
  exact ⟨Rat.num_div_eq_of_coprime positive coprime, Rat.den_div_eq_of_coprime positive coprime⟩

theorem rationalNew_eq (num : Int) {den : Int} (nonzero : den ≠ 0) :
    rationalNew num den = .ok (.rational (num / den : ℚ).num (num / den : ℚ).den) := by
  have someGcd : ((num.gcd den : Int) : ℚ) ≠ 0 := by simp [nonzero]
  have coprime := Int.gcd_ediv_gcd_ediv_gcd (i := num) (j := den) (by simp [nonzero])
  have value : (num / den : ℚ) = (num / num.gcd den : Int) / (den / num.gcd den : Int) := by
    rw [Int.cast_div (Int.gcd_dvd_left ..) someGcd, Int.cast_div (Int.gcd_dvd_right ..) someGcd,
      div_div_div_cancel_right₀ someGcd]
  have lower : den / num.gcd den ≠ 0 := by
    intro zero
    have whole := Int.ediv_mul_cancel (Int.gcd_dvd_right (a := num) (b := den))
    rw [zero, zero_mul] at whole
    exact nonzero whole.symm
  unfold rationalNew
  dsimp only
  rw [if_neg nonzero, Int.tdiv_eq_ediv_of_dvd (Int.gcd_dvd_left ..),
    Int.tdiv_eq_ediv_of_dvd (Int.gcd_dvd_right ..)]
  generalize num / (num.gcd den) = n at *
  generalize den / (num.gcd den) = d at *
  by_cases negative : d < 0
  · rw [← neg_div_neg_eq (n : ℚ)] at value
    rw [← Int.neg_gcd, ← Int.gcd_neg] at coprime
    obtain ⟨isNum, isDen⟩ := num_den_of_coprime (by omega) coprime value
    rw [if_pos negative, isNum, isDen]
  · obtain ⟨isNum, isDen⟩ := num_den_of_coprime (by omega) coprime value
    rw [if_neg negative, isNum, isDen]

/-- What `int_pow` answers on two Integers. -/
structure PowerLaws (a b : IntValue) : Prop where
  up : 0 ≤ toBigint b → ∃ v, intPow a b = .ok v ∧ UpTo (toBigint a) (toBigint b).toNat v
  down : toBigint b < 0 → -toBigint b < 2 ^ 32 → 1 < |toBigint a| → ∃ n d : Int,
    intPow a b = .ok (.rational n d) ∧ 0 < d ∧ n.gcd d = 1 ∧
      (n : ℚ) / d = 1 / (toBigint a : ℚ) ^ (-toBigint b).toNat
  unit : toBigint b < 0 → |toBigint a| = 1 → ∃ r, intPow a b = .ok (.integer r) ∧
    Answers r (toBigint a ^ (-toBigint b).toNat)
  zero : toBigint b < 0 → toBigint a = 0 → intPow a b = .zeroDivision "divided by 0"

theorem wordPow_negative (negative : toBigint b < 0) : wordPow a b = none := by
  cases word : wordPow a b with
  | none => rfl
  | some r => exact absurd (wordPow_answers word).1 (not_le.mpr negative)

/-- Integer powers are exact. -/
theorem intPow_laws (a b : IntValue) (left : a.Canonical) : PowerLaws a b where
  up nonnegative := ⟨_, intPow_of_nonneg a nonnegative, intPowUp_upTo a b nonnegative⟩
  down negative narrow large := by
    obtain ⟨value, _⟩ := intValue_answers (-toBigint b)
    have answered := intPowUp_upTo a (intValue (-toBigint b)) (by omega)
    rw [value] at answered
    rcases answered with ⟨r, integer, power, _⟩ | ⟨_, _, wide⟩
    · have nonzero : toBigint a ≠ 0 := by
        intro zero
        rw [zero, abs_zero] at large
        omega
      have some_ : toBigint r ≠ 0 := by rw [power]; exact pow_ne_zero _ nonzero
      refine ⟨_, _, ?_, Int.natCast_pos.mpr (Rat.pos _), Rat.reduced _,
        (Int.cast_natCast (R := ℚ) _ ▸ Rat.num_div_den (1 / toBigint r)).trans ?_⟩
      · rw [intPow, unitPow_none large.ne', wordPow_negative negative]
        rw [if_pos negative, if_neg nonzero, integer]
        exact_mod_cast rationalNew_eq 1 some_
      · rw [power]
        push_cast
        rfl
    · omega
  unit negative one := by
    have magnitude : (toBigint b).natAbs = (-toBigint b).toNat := by omega
    cases unit : unitPow a b with
    | some r =>
      have answers := unitPow_answers unit
      rw [magnitude] at answers
      exact ⟨r, by rw [intPow, unit], answers⟩
    | none =>
      exfalso
      unfold unitPow at unit
      rcases eq_or_eq_neg_of_abs_eq one with plus | minus
      · have same := eq_int_of_canonical (x := 1) left plus
        rw [if_pos same] at unit
        cases unit
      · have same := eq_int_of_canonical (x := -1) left minus
        rw [same] at unit
        exact absurd unit (by simp)
  zero negative none := by
    have small : |toBigint a| ≠ 1 := by
      rw [none]
      decide
    rw [intPow, unitPow_none small, wordPow_negative negative]
    rw [if_pos negative, if_pos none]

/-- Canonical Integers have powers. -/
theorem intPow_laws_half : (IntValue.int (-2)).Canonical ∧ PowerLaws (.int (-2)) (.int (-3)) :=
  ⟨(answers_int rfl).2, intPow_laws _ _ (answers_int rfl).2⟩

/-- `1 ** -1` is an Integer and no Rational. -/
theorem intPow_one_negative :
    ¬ ∃ n d, intPow (.int 1) (.int (-1)) = .ok (.rational n d) := by
  rintro ⟨n, d, answered⟩
  cases answered

end Zeo.Numeric
