import Zeo.Numeric.Power

/-!
# Rational arithmetic

A Rational is a pair of big integers in lowest terms, with the sign on the numerator. Every
operation computes over the pairs of its operands, an Integer being one over 1, and leaves the
reduction to `rational_new`.
-/

namespace Zeo.Numeric

open Int

inductive Exact where
  | integer (v : IntValue)
  | rational (num den : Int)
deriving DecidableEq

/-- What `rational_new` answers, or the message of its `ZeroDivisionError`. -/
def exactNew (num den : Int) : Except String Exact :=
  match rationalNew num den with
  | .ok (.rational n d) => .ok (.rational n d)
  | .zeroDivision message => .error message
  | _ => .error "no Rational"

def asRatio : Exact → Int × Int
  | .integer v => (toBigint v, 1)
  | .rational num den => (num, den)

def ratAdd (a b : Exact) : Except String Exact :=
  exactNew ((asRatio a).1 * (asRatio b).2 + (asRatio b).1 * (asRatio a).2)
    ((asRatio a).2 * (asRatio b).2)

def ratSub (a b : Exact) : Except String Exact :=
  exactNew ((asRatio a).1 * (asRatio b).2 - (asRatio b).1 * (asRatio a).2)
    ((asRatio a).2 * (asRatio b).2)

def ratMul (a b : Exact) : Except String Exact :=
  exactNew ((asRatio a).1 * (asRatio b).1) ((asRatio a).2 * (asRatio b).2)

def ratDiv (a b : Exact) : Except String Exact :=
  exactNew ((asRatio a).1 * (asRatio b).2) ((asRatio a).2 * (asRatio b).1)

/-- `rat_pow`; `none` is the Float that `powf` gives. -/
def ratPow (a : Exact) : Exact → Option (Except String Exact)
  | .integer b =>
    let down := toBigint b < 0
    let base := if down then (asRatio a).swap else asRatio a
    (toU32 (if down then -toBigint b else toBigint b)).map fun e =>
      exactNew (base.1 ^ e) (base.2 ^ e)
  | .rational _ _ => none

def ratCmp (a b : Exact) : Int :=
  match compare ((asRatio a).1 * (asRatio b).2) ((asRatio b).1 * (asRatio a).2) with
  | .lt => -1
  | .eq => 0
  | .gt => 1

def numFloorExact (v : Exact) : IntValue := intValue ((asRatio v).1.fdiv (asRatio v).2)

/-- The Integer lane of a division, which raises before it divides by zero. -/
def intLane (op : IntValue → IntValue → Outcome IntValue) (x y : IntValue) : Except String Exact :=
  if toBigint y = 0 then .error "divided by 0"
  else
    match op x y with
    | .ok r => .ok (.integer r)
    | .rangeError message => .error message
    | .panic message => .error message

/-- `num_div` on exact numbers. -/
def numDiv : Exact → Exact → Except String Exact
  | .integer x, .integer y => intLane intDiv x y
  | a, b => ratDiv a b

/-- The Rational lane of `num_mod`. -/
def ratMod (a b : Exact) : Except String Exact := do
  let q ← ratDiv a b
  let product ← ratMul b (.integer (numFloorExact q))
  ratSub a product

/-- `num_mod` on exact numbers. -/
def numMod : Exact → Exact → Except String Exact
  | .integer x, .integer y => intLane intMod x y
  | a, b => ratMod a b

/-- `Numeric#divmod` on exact numbers. -/
def divmod (a b : Exact) : Except String (Exact × Exact) := do
  let q ← numDiv a b
  let r ← numMod a b
  match q with
  | .rational num den => pure (.integer (numFloorExact (.rational num den)), r)
  | .integer q => pure (.integer q, r)

def Exact.value : Exact → ℚ
  | .integer v => toBigint v
  | .rational num den => num / den

/-- An Integer in its own payload, or a Rational in lowest terms over a positive denominator. -/
def Exact.Canonical : Exact → Prop
  | .integer v => v.Canonical
  | .rational num den => 0 < den ∧ num.gcd den = 1

def Exact.ofRat (x : ℚ) : Exact := .rational x.num x.den

/-- `divmod` answers the floored quotient and what it leaves. -/
def Divides (a b : Exact) : Prop :=
  ∃ q r, divmod a b = .ok (.integer q, r) ∧ r.Canonical ∧
    a.value = toBigint q * b.value + r.value ∧
    (r.value = 0 ∨ 0 < r.value * b.value) ∧ |r.value| < |b.value|

/-- The arithmetic on two exact numbers, and the power of the first by an Integer: it is a Rational,
and the mathematical value where there is one. -/
structure RationalLaws (a b : Exact) (e : IntValue) : Prop where
  add : ratAdd a b = .ok (.ofRat (a.value + b.value))
  sub : ratSub a b = .ok (.ofRat (a.value - b.value))
  mul : ratMul a b = .ok (.ofRat (a.value * b.value))
  div : b.value ≠ 0 → ratDiv a b = .ok (.ofRat (a.value / b.value))
  cmp : ratCmp a b = if a.value < b.value then -1 else if a.value = b.value then 0 else 1
  divmod : b.value ≠ 0 → Divides a b
  pow : ∃ answer, ratPow a (.integer e) = some answer ∧
    (a.value ≠ 0 ∨ 0 ≤ toBigint e → answer = .ok (.ofRat (a.value ^ toBigint e)))

theorem exactNew_eq (num : Int) {den : Int} (nonzero : den ≠ 0) :
    exactNew num den = .ok (.ofRat (num / den)) := by
  unfold exactNew
  rw [rationalNew_eq num nonzero]
  rfl

theorem Exact.canonical_ofRat (x : ℚ) : (Exact.ofRat x).Canonical :=
  ⟨natCast_pos.mpr x.pos, x.reduced⟩

@[simp]
theorem Exact.value_ofRat (x : ℚ) : (Exact.ofRat x).value = x := by
  unfold ofRat value
  exact_mod_cast Rat.num_div_den x

theorem Exact.Canonical.ratio {v : Exact} (canonical : v.Canonical) :
    0 < (asRatio v).2 ∧ v.value = (asRatio v).1 / (asRatio v).2 := by
  cases v with
  | integer v => exact ⟨one_pos, by simp [value, asRatio]⟩
  | rational num den => exact ⟨canonical.1, rfl⟩

theorem numFloorExact_ofRat (x : ℚ) : numFloorExact (.ofRat x) = intValue ⌊x⌋ := by
  rw [Rat.floor_def']
  exact congrArg intValue (fdiv_eq_ediv_of_nonneg _ (natCast_nonneg _))

theorem remainder_between (x : ℚ) {y : ℚ} (nonzero : y ≠ 0) :
    (x - y * ⌊x / y⌋ = 0 ∨ 0 < (x - y * ⌊x / y⌋) * y) ∧ |x - y * ⌊x / y⌋| < |y| := by
  have low := fract_nonneg (x / y)
  have high := fract_lt_one (x / y)
  have part : x - y * ⌊x / y⌋ = y * fract (x / y) := by
    rw [fract, mul_sub, mul_div_cancel₀ _ nonzero]
  rw [part, abs_mul, abs_of_nonneg low]
  refine ⟨?_, mul_lt_of_lt_one_right (abs_pos.mpr nonzero) high⟩
  rcases low.eq_or_lt with zero | positive
  · exact .inl (by rw [← zero, mul_zero])
  · exact .inr (by rw [mul_right_comm]; exact mul_pos (mul_self_pos.mpr nonzero) positive)

section

variable {a b : Exact} (left : a.Canonical) (right : b.Canonical)
include left right

theorem ratArith_eq : ratAdd a b = .ok (.ofRat (a.value + b.value)) ∧
    ratSub a b = .ok (.ofRat (a.value - b.value)) ∧
    ratMul a b = .ok (.ofRat (a.value * b.value)) := by
  obtain ⟨⟨ad, isA⟩, bd, isB⟩ := And.intro left.ratio right.ratio
  have both := (mul_pos ad bd).ne'
  have lowerA : ((asRatio a).2 : ℚ) ≠ 0 := cast_ne_zero.mpr ad.ne'
  have lowerB : ((asRatio b).2 : ℚ) ≠ 0 := cast_ne_zero.mpr bd.ne'
  refine ⟨?_, ?_, ?_⟩
  · rw [ratAdd, exactNew_eq _ both, isA, isB, div_add_div _ _ lowerA lowerB]
    push_cast
    ring_nf
  · rw [ratSub, exactNew_eq _ both, isA, isB, div_sub_div _ _ lowerA lowerB]
    push_cast
    ring_nf
  · rw [ratMul, exactNew_eq _ both, isA, isB, div_mul_div_comm]
    push_cast
    rfl

theorem ratDiv_eq (nonzero : b.value ≠ 0) :
    ratDiv a b = .ok (.ofRat (a.value / b.value)) := by
  obtain ⟨⟨ad, isA⟩, -, isB⟩ := And.intro left.ratio right.ratio
  have upper : (asRatio b).1 ≠ 0 := by
    intro zero
    rw [isB, zero, cast_zero, zero_div] at nonzero
    exact nonzero rfl
  rw [ratDiv, exactNew_eq _ (mul_ne_zero ad.ne' upper), isA, isB, div_div_div_eq]
  push_cast
  rfl

theorem ratCmp_eq :
    ratCmp a b = if a.value < b.value then -1 else if a.value = b.value then 0 else 1 := by
  obtain ⟨⟨ad, isA⟩, bd, isB⟩ := And.intro left.ratio right.ratio
  have below : a.value < b.value ↔
      (asRatio a).1 * (asRatio b).2 < (asRatio b).1 * (asRatio a).2 := by
    rw [isA, isB, div_lt_div_iff₀ (cast_pos.mpr ad) (cast_pos.mpr bd)]
    exact_mod_cast Iff.rfl
  have same : a.value = b.value ↔
      (asRatio a).1 * (asRatio b).2 = (asRatio b).1 * (asRatio a).2 := by
    rw [isA, isB, div_eq_div_iff (cast_ne_zero.mpr ad.ne') (cast_ne_zero.mpr bd.ne')]
    exact_mod_cast Iff.rfl
  unfold ratCmp
  rw [if_congr below rfl rfl, if_congr same rfl rfl]
  rcases lt_trichotomy ((asRatio a).1 * (asRatio b).2) ((asRatio b).1 * (asRatio a).2) with
    lt | eq | gt
  · rw [compare_lt_iff_lt.mpr lt, if_pos lt]
  · rw [compare_eq_iff_eq.mpr eq, if_neg eq.not_lt, if_pos eq]
  · rw [compare_gt_iff_gt.mpr gt, if_neg gt.not_gt, if_neg gt.ne']

theorem ratMod_eq (nonzero : b.value ≠ 0) :
    ratMod a b = .ok (.ofRat (a.value - b.value * ⌊a.value / b.value⌋)) := by
  obtain ⟨floor, canonical⟩ := intValue_answers ⌊a.value / b.value⌋
  obtain ⟨-, -, product⟩ := ratArith_eq right (b := .integer (intValue ⌊a.value / b.value⌋)) canonical
  rw [Exact.value, floor] at product
  unfold ratMod
  rw [ratDiv_eq left right nonzero]
  change (ratMul b (.integer (numFloorExact (.ofRat (a.value / b.value)))) >>= ratSub a) = _
  rw [numFloorExact_ofRat, product]
  change ratSub a (.ofRat (b.value * ⌊a.value / b.value⌋)) = _
  rw [(ratArith_eq left (Exact.canonical_ofRat _)).2.1, Exact.value_ofRat]

theorem divides_rational (nonzero : b.value ≠ 0) (div : numDiv a b = ratDiv a b)
    (mod : numMod a b = ratMod a b) : Divides a b := by
  refine ⟨intValue ⌊a.value / b.value⌋, .ofRat (a.value - b.value * ⌊a.value / b.value⌋), ?_,
    Exact.canonical_ofRat _, ?_⟩
  · unfold divmod
    rw [div, mod, ratMod_eq left right nonzero, ratDiv_eq left right nonzero, ← numFloorExact_ofRat]
    rfl
  · rw [Exact.value_ofRat, (intValue_answers _).1]
    exact ⟨by ring, remainder_between a.value nonzero⟩

end

theorem divides_integer (x : IntValue) {y : IntValue} (nonzero : toBigint y ≠ 0) :
    Divides (.integer x) (.integer y) := by
  obtain ⟨q, div, isQ, -⟩ := intDiv_answers (a := x) nonzero
  obtain ⟨r, mod, isR, canonical⟩ := intMod_answers (a := x) nonzero
  have splits := mul_fdiv_add_fmod (toBigint x) (toBigint y)
  have between := fmod_between (toBigint x) nonzero
  rw [← isQ, ← isR, mul_comm] at splits
  rw [← isR] at between
  have sign : toBigint r = 0 ∨ 0 < toBigint r * toBigint y := by
    rcases between with ⟨low, high⟩ | ⟨low, high⟩
    · exact low.eq_or_lt.imp Eq.symm fun positive => mul_pos positive (by omega)
    · exact high.eq_or_lt.imp id fun negative => mul_pos_of_neg_of_neg negative (by omega)
  have below : |toBigint r| < |toBigint y| := by
    rw [abs_eq_natAbs, abs_eq_natAbs]
    omega
  refine ⟨q, .integer r, ?_, canonical, ?_⟩
  · simp only [divmod, numDiv, numMod, intLane, if_neg nonzero, div, mod]
    rfl
  · simp only [Exact.value]
    exact_mod_cast And.intro splits.symm (And.intro sign below)

theorem ratPow_eq {a : Exact} (left : a.Canonical) {e : IntValue}
    (narrow : |toBigint e| < 2 ^ 32) (some_ : a.value ≠ 0 ∨ 0 ≤ toBigint e) :
    ratPow a (.integer e) = some (.ok (.ofRat (a.value ^ toBigint e))) := by
  obtain ⟨ad, isA⟩ := left.ratio
  rw [abs_eq_natAbs] at narrow
  unfold ratPow
  dsimp only
  by_cases down : toBigint e < 0
  · have upper : (asRatio a).1 ≠ 0 := by
      intro zero
      rw [isA, zero, cast_zero, zero_div] at some_
      exact some_.elim (· rfl) (by omega)
    rw [if_pos down, if_pos down, toU32, if_pos (by omega)]
    obtain ⟨n, size⟩ := eq_ofNat_of_zero_le (show 0 ≤ -toBigint e by omega)
    rw [size, Option.map_some, Prod.snd_swap, exactNew_eq _ (pow_ne_zero _ upper), isA,
      show toBigint e = -n by omega, zpow_neg, zpow_natCast, ← inv_pow, inv_div, div_pow]
    push_cast
    rfl
  · rw [if_neg down, toU32, if_pos (by omega)]
    obtain ⟨n, size⟩ := eq_ofNat_of_zero_le (show 0 ≤ toBigint e by omega)
    rw [size, Option.map_some, exactNew_eq _ (pow_ne_zero _ ad.ne'), isA, zpow_natCast, div_pow]
    push_cast
    rfl

/-- The exponent is narrowed to 32 bits, and one that does not fit makes a Float. -/
theorem ratPow_isSome_iff (a : Exact) (e : IntValue) :
    (ratPow a (.integer e)).isSome ↔ |toBigint e| < 2 ^ 32 := by
  unfold ratPow
  dsimp only
  rw [Option.isSome_map, abs_eq_natAbs, toU32]
  by_cases down : toBigint e < 0
  · rw [if_pos down]
    split
    · exact iff_of_true rfl (by omega)
    · exact iff_of_false Bool.false_ne_true (by omega)
  · rw [if_neg down]
    split
    · exact iff_of_true rfl (by omega)
    · exact iff_of_false Bool.false_ne_true (by omega)

/-- The arithmetic of two exact numbers is exact for every exponent that fits 32 bits, and for no
other. -/
theorem rational_laws (a b : Exact) (e : IntValue) (left : a.Canonical) (right : b.Canonical) :
    RationalLaws a b e ↔ |toBigint e| < 2 ^ 32 := by
  constructor
  · intro laws
    obtain ⟨answer, powered, -⟩ := laws.pow
    rw [← ratPow_isSome_iff a e, powered]
    rfl
  · intro narrow
    refine ⟨(ratArith_eq left right).1, (ratArith_eq left right).2.1, (ratArith_eq left right).2.2,
      ratDiv_eq left right, ratCmp_eq left right, fun nonzero => ?_, ?_⟩
    · cases a with
      | rational => exact divides_rational left right nonzero rfl rfl
      | integer x =>
        cases b with
        | rational => exact divides_rational left right nonzero rfl rfl
        | integer y => exact divides_integer x (Int.cast_ne_zero.mp nonzero)
    · obtain ⟨answer, powered⟩ := Option.isSome_iff_exists.mp ((ratPow_isSome_iff a e).mpr narrow)
      refine ⟨answer, powered, fun some_ => ?_⟩
      rw [ratPow_eq left narrow some_, Option.some.injEq] at powered
      exact powered.symm

/-- The laws of a half and minus a third, and of a half cubed. -/
theorem rational_laws_half : RationalLaws (.rational 1 2) (.rational (-1) 3) (.int 3) :=
  (rational_laws (.rational 1 2) (.rational (-1) 3) (.int 3) ⟨by decide, by decide⟩
    ⟨by decide, by decide⟩).mpr (by decide)

/-- One by an exponent past 32 bits is a Float. -/
theorem ratPow_far : ratPow (.rational 1 1) (.integer (.int 4294967296)) = none ∧
    ¬ RationalLaws (.rational 1 1) (.rational 1 1) (.int 4294967296) := by
  have float : ratPow (.rational 1 1) (.integer (.int 4294967296)) = none := by decide
  refine ⟨float, fun laws => ?_⟩
  obtain ⟨answer, powered, -⟩ := laws.pow
  rw [float] at powered
  cases powered

end Zeo.Numeric
