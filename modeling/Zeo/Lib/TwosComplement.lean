import Mathlib.Data.Int.Bitwise

/-!
# Two's complement

An integer has infinitely many bits, from some place on all equal to its sign. A word read as a
signed number has the word's bits and repeats the topmost one above them, so the bitwise
operations on words are those on integers.
-/

namespace Zeo.Lib

open Int

/-- The bits of a non-negative and of a negative integer differ somewhere. -/
theorem testBit_ofNat_ne_negSucc (m n : Nat) :
    ∃ i, (ofNat m).testBit i ≠ (negSucc n).testBit i := by
  refine ⟨m + n, ?_⟩
  have small : m < 2 ^ (m + n) :=
    lt_of_lt_of_le Nat.lt_two_pow_self (Nat.pow_le_pow_right (by decide) (Nat.le_add_right m n))
  have fits : n < 2 ^ (m + n) :=
    lt_of_lt_of_le Nat.lt_two_pow_self (Nat.pow_le_pow_right (by decide) (Nat.le_add_left n m))
  change m.testBit (m + n) ≠ !n.testBit (m + n)
  rw [Nat.testBit_lt_two_pow small, Nat.testBit_lt_two_pow fits]
  decide

theorem eq_of_testBit_eq (a b : Int) (bits : ∀ i, a.testBit i = b.testBit i) : a = b := by
  cases a with
  | ofNat m =>
    cases b with
    | ofNat n => exact congrArg ofNat (Nat.eq_of_testBit_eq bits)
    | negSucc n =>
      obtain ⟨i, differ⟩ := testBit_ofNat_ne_negSucc m n
      exact absurd (bits i) differ
  | negSucc m =>
    cases b with
    | ofNat n =>
      obtain ⟨i, differ⟩ := testBit_ofNat_ne_negSucc n m
      exact absurd (bits i).symm differ
    | negSucc n =>
      have same : m = n := Nat.eq_of_testBit_eq fun i => by
        have here : (!m.testBit i) = !n.testBit i := bits i
        exact Bool.not_inj here
      rw [same]

theorem land_two_pow_sub_one (n : Int) (k : Nat) : n.land (2 ^ k - 1) = n % 2 ^ k := by
  have power : 2 ^ k - 1 = ofNat (2 ^ k - 1) := by
    have positive := Nat.two_pow_pos k
    have cast : ((2 ^ k : Nat) : Int) = 2 ^ k := by norm_cast
    rw [ofNat_eq_natCast]
    omega
  cases n with
  | ofNat m =>
    rw [power]
    change ofNat (m &&& (2 ^ k - 1)) = ofNat m % 2 ^ k
    rw [Nat.and_two_pow_sub_one_eq_mod]
    norm_cast
  | negSucc m =>
    rw [power]
    change ofNat (Nat.ldiff (2 ^ k - 1) m) = _
    -- the complement of the low bits
    have bits : Nat.ldiff (2 ^ k - 1) m = 2 ^ k - (m % 2 ^ k + 1) := by
      apply Nat.eq_of_testBit_eq
      intro j
      rw [Nat.testBit_two_pow_sub_succ (Nat.mod_lt m (Nat.two_pow_pos k))]
      by_cases low : j < k <;> simp [low]
    have cast : ((2 ^ k : Nat) : Int) = 2 ^ k := by norm_cast
    rw [Int.ofNat_eq_natCast, Int.negSucc_emod m (Int.pow_pos (by decide)), ← cast]
    omega

theorem testBit_toInt {w : Nat} (x : BitVec w) (i : Nat) :
    x.toInt.testBit i = if i < w then x.getLsbD i else x.msb := by
  rw [BitVec.toInt_eq_msb_cond]
  by_cases sign : x.msb = true
  · rw [sign]
    have complement : x.toNat - ((2 ^ w : Nat) : Int) = negSucc (~~~x).toNat := by
      rw [BitVec.toNat_not]
      omega
    rw [complement]
    change (!(~~~x).getLsbD i) = _
    split <;> simp_all
  · rw [if_neg sign, eq_false_of_ne_true sign]
    split
    · rfl
    · exact BitVec.getLsbD_of_ge x i (by omega)

section Words

variable {w : Nat} (x y : BitVec w)

theorem toInt_and : (x &&& y).toInt = x.toInt.land y.toInt := by
  refine eq_of_testBit_eq _ _ fun i => ?_
  rw [testBit_land, testBit_toInt, testBit_toInt, testBit_toInt]
  split <;> simp

theorem toInt_or : (x ||| y).toInt = x.toInt.lor y.toInt := by
  refine eq_of_testBit_eq _ _ fun i => ?_
  rw [testBit_lor, testBit_toInt, testBit_toInt, testBit_toInt]
  split <;> simp

theorem toInt_xor : (x ^^^ y).toInt = x.toInt.xor y.toInt := by
  refine eq_of_testBit_eq _ _ fun i => ?_
  rw [testBit_lxor, testBit_toInt, testBit_toInt, testBit_toInt]
  split <;> simp

theorem toInt_not (some_ : 0 < w) : (~~~x).toInt = x.toInt.lnot := by
  refine eq_of_testBit_eq _ _ fun i => ?_
  rw [testBit_lnot, testBit_toInt, testBit_toInt]
  split <;> simp_all

end Words

end Zeo.Lib
