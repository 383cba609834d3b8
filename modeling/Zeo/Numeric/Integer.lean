import Mathlib.Algebra.Order.Floor.Ring
import Mathlib.Data.Rat.Floor
import Zeo.Lib.TwosComplement

/-!
# Integer arithmetic

An Integer has two payloads: a word for the 64-bit signed range and a big integer beyond it. Every
operation has a path for two words, which falls through where the result does not fit, and a path
through big integers whose result is brought back to a word where it fits. Big integers are
`Int`, and the operations of the `num` crates on them are the functions they document.
-/

namespace Zeo.Numeric

open Zeo.Lib Int

/-- `i64`. -/
abbrev Word := BitVec 64

inductive IntValue where
  | int (i : Word)
  | bigInt (n : Int)
deriving DecidableEq

/-- How a call ends: with a value, a Ruby exception, or a panic. -/
inductive Outcome (α : Type) where
  | ok (a : α)
  | rangeError (message : String)
  | panic (message : String)
deriving DecidableEq

def InWord (n : Int) : Prop := -2 ^ 63 ≤ n ∧ n < 2 ^ 63

instance : DecidablePred InWord := fun n => inferInstanceAs (Decidable (-2 ^ 63 ≤ n ∧ n < 2 ^ 63))

/-- `BigInt::to_i64`. -/
def toI64 (n : Int) : Option Word := if InWord n then some (BitVec.ofInt 64 n) else none

/-- `BigInt::to_u32`. -/
def toU32 (n : Int) : Option Nat := if 0 ≤ n ∧ n < 2 ^ 32 then some n.toNat else none

def intValue (n : Int) : IntValue :=
  match toI64 n with
  | some i => .int i
  | none => .bigInt n

def toBigint : IntValue → Int
  | .int i => i.toInt
  | .bigInt n => n

def intOrd : IntValue → IntValue → Ordering
  | .int x, .int y => compare x.toInt y.toInt
  | .bigInt x, .bigInt y => compare x y
  | .int _, .bigInt y => if 0 < y then .lt else .gt
  | .bigInt x, .int _ => if 0 < x then .gt else .lt

def intEq (a b : IntValue) : Bool := intOrd a b == .eq

/-- `i64::checked_add`. -/
def checkedAdd (x y : Word) : Option Word := if x.saddOverflow y then none else some (x + y)

/-- `i64::checked_sub`. -/
def checkedSub (x y : Word) : Option Word := if x.ssubOverflow y then none else some (x - y)

/-- `i64::checked_mul`. -/
def checkedMul (x y : Word) : Option Word := if x.smulOverflow y then none else some (x * y)

/-- `i64::checked_neg`. -/
def checkedNeg (x : Word) : Option Word := if x.negOverflow then none else some (-x)

/-- `i64::checked_shl`: only the amount is checked. -/
def checkedShl (x : Word) (amount : Nat) : Option Word :=
  if amount < 64 then some (x <<< amount) else none

/-- `div_floor` on words. -/
def divFloor (x y : Word) : Word := BitVec.ofInt 64 (x.toInt.fdiv y.toInt)

/-- `mod_floor` on words. -/
def modFloor (x y : Word) : Word := BitVec.ofInt 64 (x.toInt.fmod y.toInt)

/-- `int_binop`: the checked operation on two words, else the one on big integers. -/
def intBinop (checked : Word → Word → Option Word) (op : Int → Int → Int) (a b : IntValue) :
    IntValue :=
  match a, b with
  | .int x, .int y =>
    match checked x y with
    | some r => .int r
    | none => intValue (op (toBigint a) (toBigint b))
  | a, b => intValue (op (toBigint a) (toBigint b))

def intAdd : IntValue → IntValue → IntValue := intBinop checkedAdd (· + ·)

def intSub : IntValue → IntValue → IntValue := intBinop checkedSub (· - ·)

def intMul : IntValue → IntValue → IntValue := intBinop checkedMul (· * ·)

def intDivSlow (a b : IntValue) : Outcome IntValue :=
  if toBigint b = 0 then .panic "divided by 0"
  else .ok (intValue ((toBigint a).fdiv (toBigint b)))

def intModSlow (a b : IntValue) : Outcome IntValue :=
  if toBigint b = 0 then .panic "divided by 0"
  else .ok (intValue ((toBigint a).fmod (toBigint b)))

/-- The part that `int_div` and `int_mod` share: the least word over minus one overflows. -/
def intDivision (words : Word → Word → Word) (slow : IntValue → IntValue → Outcome IntValue)
    (a b : IntValue) : Outcome IntValue :=
  match a, b with
  | .int x, .int y =>
    if y = 0 then .panic "divided by 0"
    else if ¬(x = BitVec.intMin 64 ∧ y = -1) then .ok (.int (words x y))
    else slow a b
  | a, b => slow a b

def intDiv : IntValue → IntValue → Outcome IntValue := intDivision divFloor intDivSlow

def intMod : IntValue → IntValue → Outcome IntValue := intDivision modFloor intModSlow

def intBitop (words : Word → Word → Word) (op : Int → Int → Int) (a b : IntValue) : IntValue :=
  match a, b with
  | .int x, .int y => .int (words x y)
  | a, b => intValue (op (toBigint a) (toBigint b))

def intBand : IntValue → IntValue → IntValue := intBitop (· &&& ·) Int.land

def intBor : IntValue → IntValue → IntValue := intBitop (· ||| ·) Int.lor

def intBxor : IntValue → IntValue → IntValue := intBitop (· ^^^ ·) Int.xor

def intBnot : IntValue → IntValue
  | .int x => .int (~~~x)
  | .bigInt n => intValue n.lnot

def intNeg : IntValue → IntValue
  | .int x =>
    match checkedNeg x with
    | some r => .int r
    | none => intValue (-x.toInt)
  | .bigInt n => intValue (-n)

/-- The part of `int_shl` behind the sign of the amount. -/
def shiftLeft (a : IntValue) (amount : Int) : Outcome IntValue :=
  match toU32 amount with
  | none => .rangeError "shift width too big"
  | some amount =>
    match a with
    | .int x =>
      match checkedShl x amount with
      | some r =>
        if amount < 64 ∧ r.sshiftRight amount = x then .ok (.int r)
        else .ok (intValue (x.toInt <<< amount))
      | none => .ok (intValue (x.toInt <<< amount))
    | .bigInt n => .ok (intValue (n <<< amount))

/-- The part of `int_shr` behind the sign of the amount. -/
def shiftRight (a : IntValue) (amount : Int) : Outcome IntValue :=
  match toU32 amount with
  | none => .ok (.int (if intOrd a (.int 0) = .lt then -1 else 0))
  | some amount =>
    match a with
    | .int x =>
      if 64 ≤ amount then .ok (.int (if x.toInt < 0 then -1 else 0))
      else .ok (.int (x.sshiftRight amount))
    | .bigInt n => .ok (intValue (n >>> amount))

/-- `int_shl`. A negative amount goes to `int_shr`, where its negation is not negative. -/
def intShl (a b : IntValue) : Outcome IntValue :=
  if toBigint b < 0 then shiftRight a (toBigint (intValue (-toBigint b)))
  else shiftLeft a (toBigint b)

/-- `int_shr`. A negative amount goes to `int_shl`, where its negation is not negative. -/
def intShr (a b : IntValue) : Outcome IntValue :=
  if toBigint b < 0 then shiftLeft a (toBigint (intValue (-toBigint b)))
  else shiftRight a (toBigint b)

def IntValue.isBig : IntValue → Bool
  | .int _ => false
  | .bigInt _ => true

/-- The payload is big exactly when the number lies outside the words. -/
def IntValue.Canonical (v : IntValue) : Prop := v.isBig = true ↔ ¬InWord (toBigint v)

def Answers (v : IntValue) (n : Int) : Prop := toBigint v = n ∧ v.Canonical

theorem inWord_toInt (x : Word) : InWord x.toInt := ⟨x.le_toInt, x.toInt_lt⟩

variable {n : Int}

theorem toInt_ofInt (fits : InWord n) : (BitVec.ofInt 64 n).toInt = n :=
  BitVec.toInt_ofInt_eq_self (by decide) fits.1 fits.2

theorem answers_int {x : Word} (holds : x.toInt = n) : Answers (.int x) n :=
  ⟨holds, by simp [IntValue.Canonical, IntValue.isBig, toBigint, inWord_toInt]⟩

theorem intValue_answers (n : Int) : Answers (intValue n) n := by
  unfold intValue toI64
  by_cases fits : InWord n
  · rw [if_pos fits]
    exact answers_int (toInt_ofInt fits)
  · rw [if_neg fits]
    exact ⟨rfl, by simp [IntValue.Canonical, IntValue.isBig, toBigint, fits]⟩

variable {op : Int → Int → Int}

theorem intBinop_answers {checked : Word → Word → Option Word}
    (right : ∀ x y r, checked x y = some r → r.toInt = op x.toInt y.toInt) (a b : IntValue) :
    Answers (intBinop checked op a b) (op (toBigint a) (toBigint b)) := by
  unfold intBinop
  split
  · rename_i x y
    cases answered : checked x y with
    | none => exact intValue_answers _
    | some r => exact answers_int (right x y r answered)
  · exact intValue_answers _

theorem intAdd_answers (a b : IntValue) : Answers (intAdd a b) (toBigint a + toBigint b) := by
  refine intBinop_answers (fun x y r answered => ?_) a b
  rw [checkedAdd, Option.ite_none_left_eq_some, Option.some.injEq] at answered
  rw [← answered.2]
  exact BitVec.toInt_add_of_not_saddOverflow answered.1

theorem intSub_answers (a b : IntValue) : Answers (intSub a b) (toBigint a - toBigint b) := by
  refine intBinop_answers (fun x y r answered => ?_) a b
  rw [checkedSub, Option.ite_none_left_eq_some, Option.some.injEq] at answered
  rw [← answered.2]
  exact BitVec.toInt_sub_of_not_ssubOverflow answered.1

theorem intMul_answers (a b : IntValue) : Answers (intMul a b) (toBigint a * toBigint b) := by
  refine intBinop_answers (fun x y r answered => ?_) a b
  rw [checkedMul, Option.ite_none_left_eq_some, Option.some.injEq] at answered
  rw [← answered.2]
  exact BitVec.toInt_mul_of_not_smulOverflow answered.1

variable (a : IntValue)

theorem intNeg_answers : Answers (intNeg a) (-toBigint a) := by
  cases a with
  | bigInt n => exact intValue_answers _
  | int x =>
    simp only [intNeg, checkedNeg]
    by_cases overflow : x.negOverflow = true
    · rw [if_pos overflow]
      exact intValue_answers _
    · rw [if_neg overflow]
      exact answers_int (BitVec.toInt_neg_of_not_negOverflow overflow)

theorem IntValue.Canonical.outside (canonical : (IntValue.bigInt n).Canonical) :
    n < -2 ^ 63 ∨ 2 ^ 63 ≤ n := by
  have past : ¬InWord n := canonical.mp rfl
  unfold InWord at past
  omega

variable {b : IntValue}

theorem intOrd_eq {a : IntValue} (left : a.Canonical) (right : b.Canonical) :
    intOrd a b = compare (toBigint a) (toBigint b) := by
  cases a with
  | int x =>
    cases b with
    | int y => rfl
    | bigInt y =>
      obtain ⟨low, high⟩ := inWord_toInt x
      have past := right.outside
      simp only [intOrd, toBigint]
      split
      · exact (compare_lt_iff_lt.mpr (by omega)).symm
      · exact (compare_gt_iff_gt.mpr (by omega)).symm
  | bigInt x =>
    cases b with
    | int y =>
      obtain ⟨low, high⟩ := inWord_toInt y
      have past := left.outside
      simp only [intOrd, toBigint]
      split
      · exact (compare_gt_iff_gt.mpr (by omega)).symm
      · exact (compare_lt_iff_lt.mpr (by omega)).symm
    | bigInt y => rfl

theorem fmod_between (a : Int) {b : Int} (nonzero : b ≠ 0) :
    0 ≤ a.fmod b ∧ a.fmod b < b ∨ b < a.fmod b ∧ a.fmod b ≤ 0 := by
  rcases lt_or_gt_of_ne nonzero with negative | positive
  · have low := fmod_nonneg_of_pos (-a) (neg_pos_of_neg negative)
    have high := fmod_lt_of_pos (-a) (neg_pos_of_neg negative)
    rw [Int.neg_fmod_neg] at low high
    exact .inr ⟨by omega, by omega⟩
  · exact .inl ⟨fmod_nonneg_of_pos a positive, fmod_lt_of_pos a positive⟩

/-- The remainders by a number and by a multiple of it are the same where the larger one is small
enough. -/
theorem emod_eq_emod_iff {p q : Int} (positive : 0 < q) (divides : q ∣ p) (large : 0 < p)
    (n : Int) :
    n % q = n % p ↔ n % p < q := by
  rw [← emod_emod_of_dvd n divides]
  constructor
  · intro same
    rw [← same]
    exact emod_lt_of_pos _ positive
  · intro below
    exact emod_eq_of_lt (emod_nonneg n large.ne') below

theorem toInt_ne_zero {y : Word} (nonzero : y ≠ 0) : y.toInt ≠ 0 := by
  intro zero
  exact nonzero (BitVec.eq_of_toInt_eq zero)

/-- The quotient of two words fits a word but for one pair. -/
theorem inWord_fdiv {x y : Word} (nonzero : y ≠ 0) (other : ¬(x = BitVec.intMin 64 ∧ y = -1)) :
    InWord (x.toInt.fdiv y.toInt) := by
  obtain ⟨low, high⟩ := inWord_toInt x
  have splits := mul_fdiv_add_fmod x.toInt y.toInt
  have between := fmod_between x.toInt (toInt_ne_zero nonzero)
  have notBoth : ¬(x.toInt = -2 ^ 63 ∧ y.toInt = -1) := by
    rintro ⟨least, minus⟩
    exact other ⟨BitVec.eq_of_toInt_eq least, BitVec.eq_of_toInt_eq minus⟩
  generalize x.toInt = a at *
  generalize y.toInt = d at *
  generalize a.fdiv d = q at *
  generalize a.fmod d = r at *
  unfold InWord
  rcases between with ⟨atLeast, below⟩ | ⟨above, atMost⟩
  · constructor
    · by_contra past
      nlinarith
    · by_contra past
      nlinarith
  · by_cases minus : d = -1
    · subst minus
      omega
    · constructor
      · by_contra past
        nlinarith
      · by_contra past
        have two : d ≤ -2 := by omega
        nlinarith

theorem inWord_fmod (x : Word) {y : Word} (nonzero : y ≠ 0) : InWord (x.toInt.fmod y.toInt) := by
  obtain ⟨low, high⟩ := inWord_toInt y
  have between := fmod_between x.toInt (toInt_ne_zero nonzero)
  unfold InWord
  omega

variable {words : Word → Word → Word}

theorem intDivision_answers {slow : IntValue → IntValue → Outcome IntValue}
    (right : ∀ x y, y ≠ 0 → ¬(x = BitVec.intMin 64 ∧ y = -1) → (words x y).toInt = op x.toInt y.toInt)
    (far : ∀ a b, toBigint b ≠ 0 → slow a b = .ok (intValue (op (toBigint a) (toBigint b))))
    (a : IntValue) (nonzero : toBigint b ≠ 0) :
    ∃ r, intDivision words slow a b = .ok r ∧ Answers r (op (toBigint a) (toBigint b)) := by
  unfold intDivision
  split
  · rename_i x y
    have some_ : y ≠ 0 := by
      rintro rfl
      exact nonzero rfl
    rw [if_neg some_]
    by_cases both : x = BitVec.intMin 64 ∧ y = -1
    · rw [if_neg (not_not_intro both)]
      exact ⟨_, far _ _ nonzero, intValue_answers _⟩
    · rw [if_pos both]
      exact ⟨_, rfl, answers_int (right x y some_ both)⟩
  · exact ⟨_, far _ _ nonzero, intValue_answers _⟩

theorem intDiv_answers (nonzero : toBigint b ≠ 0) :
    ∃ q, intDiv a b = .ok q ∧ Answers q ((toBigint a).fdiv (toBigint b)) :=
  intDivision_answers
    (fun x y some_ other => toInt_ofInt (inWord_fdiv some_ other))
    (fun a b some_ => by rw [intDivSlow, if_neg some_]) a nonzero

theorem intMod_answers (nonzero : toBigint b ≠ 0) :
    ∃ r, intMod a b = .ok r ∧ Answers r ((toBigint a).fmod (toBigint b)) :=
  intDivision_answers
    (fun x y some_ _ => toInt_ofInt (inWord_fmod x some_))
    (fun a b some_ => by rw [intModSlow, if_neg some_]) a nonzero

theorem intBitop_answers (right : ∀ x y, (words x y).toInt = op x.toInt y.toInt) (a b : IntValue) :
    Answers (intBitop words op a b) (op (toBigint a) (toBigint b)) := by
  unfold intBitop
  split
  · exact answers_int (right _ _)
  · exact intValue_answers _

theorem intBnot_answers : Answers (intBnot a) (toBigint a).lnot := by
  cases a with
  | int x => exact answers_int (toInt_not x (by decide))
  | bigInt n => exact intValue_answers _

theorem lnot_eq (n : Int) : n.lnot = -n - 1 := by
  cases n with
  | ofNat m => simp [lnot]; omega
  | negSucc m => simp [lnot]

/-- The number that a shift by a signed amount comes to. -/
def shifted (n k : Int) : Int := ⌊(n : ℚ) * 2 ^ k⌋

theorem shifted_natCast (n : Int) (k : Nat) : shifted n k = n * 2 ^ k := by
  unfold shifted
  exact_mod_cast floor_intCast (n * 2 ^ k)

theorem shifted_neg (n : Int) (k : Nat) : shifted n (-k) = n / 2 ^ k := by
  unfold shifted
  have divides := Rat.floor_intCast_div_natCast n (2 ^ k)
  rw [zpow_neg, ← div_eq_mul_inv]
  exact_mod_cast divides

theorem toInt_shiftLeft {x : Word} {amount : Nat} (small : amount < 64)
    (undone : (x <<< amount).sshiftRight amount = x) :
    (x <<< amount).toInt = x.toInt * 2 ^ amount := by
  have back : (x <<< amount).toInt / 2 ^ amount = x.toInt := by
    have read := congrArg BitVec.toInt undone
    rw [BitVec.toInt_sshiftRight, Int.shiftRight_eq_div_pow] at read
    exact_mod_cast read
  have whole : (2 ^ amount) ∣ (x <<< amount).toInt := by
    have wraps : ((2 ^ 64) : Int) ∣ (x <<< amount).toInt - (x.toNat <<< amount) := by
      rw [BitVec.toInt_shiftLeft]
      exact Int.dvd_bmod_sub_self
    have inside : (2 ^ amount) ∣ ((2 ^ 64) : Int) := by
      exact_mod_cast Nat.pow_dvd_pow 2 (Nat.le_of_lt small)
    have multiple : (2 ^ amount : Int) ∣ (x.toNat <<< amount) := by
      rw [Nat.shiftLeft_eq]
      exact ⟨x.toNat, by push_cast; ring⟩
    exact (Int.dvd_iff_dvd_of_dvd_sub (inside.trans wraps)).mpr multiple
  rw [← back, Int.ediv_mul_cancel whole]

theorem shiftLeft_answers {k : Int} (nonneg : 0 ≤ k) (fits : k < 2 ^ 32) :
    ∃ r, shiftLeft a k = .ok r ∧ Answers r (shifted (toBigint a) k) := by
  obtain ⟨k, rfl⟩ := eq_ofNat_of_zero_le nonneg
  rw [shifted_natCast]
  have amount : toU32 k = some k := by
    rw [toU32, if_pos ⟨natCast_nonneg k, fits⟩, toNat_natCast]
  have far (n : Int) : Answers (intValue (n <<< k)) (n * 2 ^ k) := by
    rw [shiftLeft_eq]
    exact intValue_answers _
  rw [shiftLeft, amount]
  cases a with
  | bigInt n => exact ⟨_, rfl, far n⟩
  | int x =>
    simp only [checkedShl]
    by_cases small : k < 64
    · rw [if_pos small]
      by_cases undone : (x <<< k).sshiftRight k = x
      · refine ⟨_, if_pos ⟨small, undone⟩, ?_⟩
        exact answers_int (toInt_shiftLeft small undone)
      · exact ⟨_, if_neg fun both => undone both.2, far x.toInt⟩
    · rw [if_neg small]
      exact ⟨_, rfl, far x.toInt⟩

/-- A number below a power of two is shifted out by its exponent. -/
theorem ediv_two_pow_of_within {k : Nat} (low : -2 ^ k ≤ n) (high : n < 2 ^ k) :
    n / 2 ^ k = if n < 0 then -1 else 0 := by
  have positive : (0 : Int) < 2 ^ k := Int.pow_pos (by decide)
  split
  · exact ((Int.ediv_emod_unique (r := n + 2 ^ k) positive).mpr
      ⟨by omega, by omega, by omega⟩).1
  · exact Int.ediv_eq_zero_of_lt (by omega) high

/-- A signed shift amount past `u32`, to the right, leaves no bit of the number. -/
def ShiftedOut (n k : Int) : Prop :=
  k ≤ -2 ^ 32 → -2 ^ (-k).toNat ≤ n ∧ n < 2 ^ (-k).toNat

/-- A shift to the right. Past `u32` only the sign is left, which is right for a number that has
no more bits than are shifted out. -/
theorem shiftRight_answers {a : IntValue} (canonical : a.Canonical) {k : Int} (nonneg : 0 ≤ k)
    (out : ShiftedOut (toBigint a) (-k)) :
    ∃ r, shiftRight a k = .ok r ∧ Answers r (shifted (toBigint a) (-k)) := by
  obtain ⟨k, rfl⟩ := eq_ofNat_of_zero_le nonneg
  rw [shifted_neg]
  have within (wide : 2 ^ 32 ≤ k) : -2 ^ k ≤ toBigint a ∧ toBigint a < 2 ^ k := by
    have bounds := out (by omega)
    rw [neg_neg] at bounds
    exact bounds
  rw [shiftRight]
  by_cases fits : (k : Int) < 2 ^ 32
  · have amount : toU32 k = some k := by
      rw [toU32, if_pos ⟨natCast_nonneg k, fits⟩, toNat_natCast]
    rw [amount]
    cases a with
    | bigInt n =>
      refine ⟨_, rfl, ?_⟩
      rw [shiftRight_eq_div_pow]
      exact_mod_cast intValue_answers _
    | int x =>
      by_cases wide : 64 ≤ k
      · obtain ⟨low, high⟩ := inWord_toInt x
        have room : (2 ^ 63 : Int) ≤ 2 ^ k :=
          pow_le_pow_right₀ (by decide) (by omega)
        refine ⟨_, if_pos wide, answers_int ?_⟩
        rw [toBigint, ediv_two_pow_of_within (by omega) (by omega)]
        split <;> rfl
      · refine ⟨_, if_neg wide, answers_int ?_⟩
        rw [BitVec.toInt_sshiftRight, shiftRight_eq_div_pow]
        exact_mod_cast rfl
  · have amount : toU32 k = none := by
      rw [toU32, if_neg fun both => fits both.2]
    rw [amount]
    refine ⟨_, rfl, answers_int ?_⟩
    obtain ⟨low, high⟩ := within (by omega)
    rw [ediv_two_pow_of_within low high]
    have sign : intOrd a (.int 0) = .lt ↔ toBigint a < 0 := by
      rw [intOrd_eq canonical (answers_int rfl).2]
      exact compare_lt_iff_lt
    by_cases negative : toBigint a < 0
    · rw [if_pos (sign.mpr negative), if_pos negative]
      rfl
    · rw [if_neg (mt sign.mp negative), if_neg negative]
      rfl

theorem intShl_answers {a : IntValue} (canonical : a.Canonical) (narrow : toBigint b < 2 ^ 32)
    (out : ShiftedOut (toBigint a) (toBigint b)) :
    ∃ r, intShl a b = .ok r ∧ Answers r (shifted (toBigint a) (toBigint b)) := by
  unfold intShl
  by_cases negative : toBigint b < 0
  · have back := shiftRight_answers canonical (k := -toBigint b) (by omega)
    rw [neg_neg] at back
    rw [if_pos negative, (intValue_answers _).1]
    exact back out
  · rw [if_neg negative]
    exact shiftLeft_answers a (by omega) narrow

theorem intShr_answers {a : IntValue} (canonical : a.Canonical) (narrow : -2 ^ 32 < toBigint b)
    (out : ShiftedOut (toBigint a) (-toBigint b)) :
    ∃ r, intShr a b = .ok r ∧ Answers r (shifted (toBigint a) (-toBigint b)) := by
  unfold intShr
  by_cases negative : toBigint b < 0
  · rw [if_pos negative, (intValue_answers _).1]
    exact shiftLeft_answers a (by omega) (by omega)
  · rw [if_neg negative]
    exact shiftRight_answers canonical (by omega) out

theorem shiftLeft_wide {k : Int} (wide : 2 ^ 32 ≤ k) :
    shiftLeft a k = .rangeError "shift width too big" := by
  have amount : toU32 k = none := by
    rw [toU32, if_neg (by omega)]
  rw [shiftLeft, amount]

structure IntegerLaws (a b : IntValue) : Prop where
  add : Answers (intAdd a b) (toBigint a + toBigint b)
  sub : Answers (intSub a b) (toBigint a - toBigint b)
  mul : Answers (intMul a b) (toBigint a * toBigint b)
  division : toBigint b ≠ 0 → ∃ q r, intDiv a b = .ok q ∧ intMod a b = .ok r ∧ q.Canonical ∧
    r.Canonical ∧ toBigint a = toBigint q * toBigint b + toBigint r ∧
    (0 ≤ toBigint r ∧ toBigint r < toBigint b ∨ toBigint b < toBigint r ∧ toBigint r ≤ 0)
  band : (intBand a b).Canonical ∧ ∀ i,
    (toBigint (intBand a b)).testBit i = ((toBigint a).testBit i && (toBigint b).testBit i)
  bor : (intBor a b).Canonical ∧ ∀ i,
    (toBigint (intBor a b)).testBit i = ((toBigint a).testBit i || (toBigint b).testBit i)
  bxor : (intBxor a b).Canonical ∧ ∀ i,
    (toBigint (intBxor a b)).testBit i = ((toBigint a).testBit i ^^ (toBigint b).testBit i)
  bnot : Answers (intBnot a) (-toBigint a - 1) ∧
    ∀ i, (toBigint (intBnot a)).testBit i = !(toBigint a).testBit i
  neg : Answers (intNeg a) (-toBigint a)
  shl : toBigint b < 2 ^ 32 → ShiftedOut (toBigint a) (toBigint b) →
    ∃ r, intShl a b = .ok r ∧ Answers r (shifted (toBigint a) (toBigint b))
  shlWide : 2 ^ 32 ≤ toBigint b → intShl a b = .rangeError "shift width too big"
  /-- The same, with the direction turned around. -/
  shr : -2 ^ 32 < toBigint b → ShiftedOut (toBigint a) (-toBigint b) →
    ∃ r, intShr a b = .ok r ∧ Answers r (shifted (toBigint a) (-toBigint b))
  /-- A shift that is too wide to the left, by a negative amount. -/
  shrWide : toBigint b ≤ -2 ^ 32 → intShr a b = .rangeError "shift width too big"
  ord : intOrd a b = compare (toBigint a) (toBigint b)
  eq : intEq a b = true ↔ toBigint a = toBigint b

/-- Integer arithmetic is exact and its results are canonical. -/
theorem integer_laws (a b : IntValue) (left : a.Canonical) (right : b.Canonical) :
    IntegerLaws a b where
  add := intAdd_answers a b
  sub := intSub_answers a b
  mul := intMul_answers a b
  division nonzero := by
    obtain ⟨q, divided, quotient, whole⟩ := intDiv_answers a nonzero
    obtain ⟨r, reduced, remainder, rest⟩ := intMod_answers a nonzero
    refine ⟨q, r, divided, reduced, whole, rest, ?_, ?_⟩
    · rw [quotient, remainder, mul_comm, Int.mul_fdiv_add_fmod]
    · rw [remainder]
      exact fmod_between _ nonzero
  band := by
    obtain ⟨value, canonical⟩ := intBitop_answers (toInt_and) a b
    refine ⟨canonical, fun i => ?_⟩
    rw [intBand, value, Int.testBit_land]
  bor := by
    obtain ⟨value, canonical⟩ := intBitop_answers (toInt_or) a b
    refine ⟨canonical, fun i => ?_⟩
    rw [intBor, value, Int.testBit_lor]
  bxor := by
    obtain ⟨value, canonical⟩ := intBitop_answers (toInt_xor) a b
    refine ⟨canonical, fun i => ?_⟩
    rw [intBxor, value, Int.testBit_lxor]
  bnot := by
    obtain ⟨value, canonical⟩ := intBnot_answers a
    refine ⟨⟨value.trans (lnot_eq _), canonical⟩, fun i => ?_⟩
    rw [value, Int.testBit_lnot]
  neg := intNeg_answers a
  shl := intShl_answers left
  shlWide wide := by
    rw [intShl, if_neg (by omega)]
    exact shiftLeft_wide a wide
  shr := intShr_answers left
  shrWide wide := by
    rw [intShr, if_pos (by omega), (intValue_answers _).1]
    exact shiftLeft_wide a (by omega)
  ord := intOrd_eq left right
  eq := by
    rw [intEq, intOrd_eq left right, beq_iff_eq]
    exact compare_eq_iff_eq

/-- The least word divided by minus one leaves the words. -/
theorem integer_laws_least : (IntValue.int (BitVec.intMin 64)).Canonical ∧
    (IntValue.int (-1)).Canonical ∧ IntegerLaws (.int (BitVec.intMin 64)) (.int (-1)) :=
  ⟨(answers_int rfl).2, (answers_int rfl).2,
    integer_laws _ _ (answers_int rfl).2 (answers_int rfl).2⟩

/-- One shifted left by two to the power of 32 is no Integer but a refusal. -/
theorem shift_width_refused :
    intShl (.int 1) (.int 4294967296) = .rangeError "shift width too big" := by
  decide

end Zeo.Numeric
