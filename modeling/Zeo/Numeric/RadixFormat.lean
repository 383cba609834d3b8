import Mathlib.Data.Nat.Digits.Lemmas

/-!
# Negative integers under `%x`, `%o` and `%b`

A negative integer is written as an endless run of the sign digit, shown as `..`, and the digits in
which it differs. The loop that finds these digits stops at any digit of the upper half, so that the
sign digit itself may be missing in front.
-/

namespace Zeo.Numeric

open List

def digitChar (d : Nat) (upper : Bool) : Char :=
  let c := if d < 10 then Char.ofNat (48 + d) else if d < 36 then Char.ofNat (87 + d) else '0'
  if upper then c.toUpper else c

/-- The loop of `twos_complement_digits`, for at most `fuel` rounds. The digits stand with the least
significant one first. -/
def twosLoop (radix : Nat) : Nat → Int → List Nat → Option (List Nat)
  | 0, _, _ => none
  | fuel + 1, q, digits =>
    let r := if q.tmod radix < 0 then q.tmod radix + radix else q.tmod radix
    let q := (q - r).tdiv radix
    let digits := digits ++ [r.toNat]
    if q = -1 ∧ radix / 2 ≤ r.toNat then some digits else twosLoop radix fuel q digits

def twosComplementDigits (fuel : Nat) (n : Int) (radix : Nat) (upper : Bool) :
    Option (List Char) :=
  (twosLoop radix fuel n []).map fun digits => digits.reverse.map fun d => digitChar d upper

/-- Digits behind an endless run of the sign digit, the most significant one first. -/
structure Denotes (n : Int) (radix : Nat) (ds : List Nat) : Prop where
  range : ∀ d ∈ ds, d < radix
  value : ((Nat.ofDigits radix ds.reverse : Nat) : Int) - (radix : Int) ^ ds.length = n
  sign : ds.head? = some (radix - 1)

/-- The routine returns the digits of a number, the sign digit in front and no more than one where
one is enough. -/
def TwosExact (n : Int) (radix : Nat) (upper : Bool) : Prop :=
  ∃ fuel ds, twosComplementDigits fuel n radix upper = some (ds.map fun d => digitChar d upper) ∧
    Denotes n radix ds ∧ ∀ other, Denotes n radix other → ds.length ≤ other.length

/-- The first digit of a number, if it has any, is of the upper half. -/
abbrev HighTop (radix m : Nat) : Prop := radix / 2 ≤ (Nat.digits radix m).getLastD (radix - 1)

section Loop

variable {radix m : Nat} {ds : List Nat}

theorem twosLoop_succ (positive : 0 < radix) (fuel : Nat) (q : Int) (digits : List Nat) :
    twosLoop radix (fuel + 1) q digits =
      if q / radix = -1 ∧ radix / 2 ≤ (q % radix).toNat then some (digits ++ [(q % radix).toNat])
      else twosLoop radix fuel (q / radix) (digits ++ [(q % radix).toNat]) := by
  have remainder : (if q.tmod radix < 0 then q.tmod radix + radix else q.tmod radix) =
      q % radix := by
    have low := Int.emod_nonneg q (show (radix : Int) ≠ 0 by omega)
    have high := Int.emod_lt_of_pos q (show (0 : Int) < radix by omega)
    rw [Int.tmod_eq_emod]
    split_ifs <;> omega
  have quotient : (q - q % radix).tdiv radix = q / radix := by
    have split := Int.mul_ediv_add_emod q radix
    rw [show q - q % radix = radix * (q / radix) by omega]
    exact Int.mul_tdiv_cancel_left _ (by omega)
  rw [twosLoop, remainder, quotient]

/-- The digits that the loop finds, the least significant one first. -/
def settled (radix m : Nat) : List Nat :=
  (Nat.digits radix m).map (radix - 1 - ·) ++ if HighTop radix m then [radix - 1] else []

theorem settled_low (low : m < radix / 2) : settled radix m = [radix - 1 - m] := by
  unfold settled HighTop
  cases m with
  | zero =>
    rw [Nat.digits_zero, getLastD_nil, if_pos (by omega)]
    rfl
  | succ m =>
    rw [Nat.digits_of_lt _ _ (by omega) (by omega), if_neg]
    · rfl
    · exact Nat.not_le.mpr low

theorem settled_div (large : 2 ≤ radix) (high : radix / 2 ≤ m) :
    settled radix m = (radix - 1 - m % radix) :: settled radix (m / radix) := by
  have top : HighTop radix m ↔ HighTop radix (m / radix) := by
    unfold HighTop
    rw [Nat.digits_def' large (by omega), getLastD_cons]
    cases rest : Nat.digits radix (m / radix) with
    | nil =>
      have small : m / radix = 0 := Nat.digits_eq_nil_iff_eq_zero.mp rest
      have same := Nat.mod_eq_of_lt (Nat.lt_of_div_eq_zero (by omega) small)
      simp only [getLastD_nil]
      omega
    | cons d rest => rw [getLastD_cons, getLastD_cons]
  unfold settled
  simp only [top]
  rw [Nat.digits_def' large (by omega), map_cons, cons_append]

/-- The loop ends after a number of rounds that does not depend on the fuel. -/
theorem twosLoop_eq (large : 2 ≤ radix) (even : radix % 2 = 0) (m : Nat) :
    ∃ rounds, ∀ fuel digits, twosLoop radix fuel (-(m + 1 : Nat)) digits =
      if fuel < rounds then none else some (digits ++ settled radix m) := by
  induction m using Nat.strong_induction_on with
  | _ m ih =>
  have below := Nat.mod_lt m (show 0 < radix by omega)
  obtain ⟨quotient, remainder⟩ : (-(m + 1 : Nat) : Int) / radix = -(m / radix + 1 : Nat) ∧
      (-(m + 1 : Nat) : Int) % radix = (radix - 1 - m % radix : Nat) := by
    refine (Int.ediv_emod_unique (by omega)).mpr ⟨?_, by omega, by omega⟩
    have whole : radix * (m / radix) + (m % radix) = m := by
      exact_mod_cast Nat.div_add_mod m radix
    rw [mul_neg, Nat.cast_add, mul_add]
    omega
  by_cases low : m < radix / 2
  · refine ⟨1, fun fuel digits => ?_⟩
    cases fuel with
    | zero => rfl
    | succ fuel =>
      rw [twosLoop_succ (by omega), quotient, remainder, Nat.div_eq_of_lt (by omega),
        Nat.mod_eq_of_lt (by omega), if_pos ⟨rfl, by omega⟩, settled_low low]
      simp
  · obtain ⟨rounds, run⟩ := ih (m / radix) (Nat.div_lt_self (by omega) (by omega))
    refine ⟨rounds + 1, fun fuel digits => ?_⟩
    cases fuel with
    | zero => simp [twosLoop]
    | succ fuel =>
      rw [twosLoop_succ (by omega), quotient, remainder, if_neg, run,
        settled_div large (Nat.not_lt.mp low)]
      · simp
      · rintro ⟨one, upper⟩
        have small : m / radix = 0 := by omega
        have same := Nat.mod_eq_of_lt (Nat.lt_of_div_eq_zero (by omega) small)
        omega

theorem ofDigits_complement (range : ∀ d ∈ ds, d < radix) :
    Nat.ofDigits radix (ds.map (radix - 1 - ·)) + Nat.ofDigits radix ds + 1 =
      radix ^ ds.length := by
  induction ds with
  | nil => rfl
  | cons d ds ih =>
    obtain ⟨small, range⟩ := forall_mem_cons.mp range
    rw [map_cons, Nat.ofDigits_cons, Nat.ofDigits_cons, length_cons, pow_succ,
      ← ih range, add_mul, add_mul]
    rw [Nat.mul_comm radix, Nat.mul_comm radix]
    omega

/-- Digits with the sign digit in front reach down to the power below the sign digit. -/
theorem Denotes.least {q : Int} (positive : 0 < radix) (denotes : Denotes q radix ds) :
    1 ≤ ds.length ∧ -(radix : Int) ^ (ds.length - 1) ≤ q := by
  obtain ⟨rest, rfl⟩ := head?_eq_some_iff.mp denotes.sign
  have value := denotes.value
  rw [Nat.ofDigits_reverse_cons, length_cons, pow_succ, Nat.cast_add, Nat.cast_mul, Nat.cast_pow,
    Nat.cast_sub (by omega), mul_sub] at value
  rw [length_cons, Nat.add_sub_cancel]
  omega

end Loop

theorem digitChar_injective : ∀ upper, ∀ a < 16, ∀ b < 16,
    digitChar a upper = digitChar b upper → a = b := by
  decide

/-- The digits of a negative number have the sign digit in front, and once, exactly when the number
one less without its sign is zero or starts with a digit of the upper half. -/
theorem twosExact_iff (n : Int) (radix : Nat) (upper : Bool) (negative : n < 0)
    (known : radix = 2 ∨ radix = 8 ∨ radix = 16) :
    TwosExact n radix upper ↔ HighTop radix (-n - 1).toNat := by
  obtain ⟨m, rfl⟩ : ∃ m : Nat, n = -(m + 1 : Nat) := ⟨(-n - 1).toNat, by omega⟩
  rw [show (-(-(m + 1 : Nat) : Int) - 1).toNat = m by omega]
  obtain ⟨rounds, run⟩ := twosLoop_eq (show 2 ≤ radix by omega) (by omega) m
  have digits : ∀ d ∈ Nat.digits radix m, d < radix :=
    fun d member => Nat.digits_lt_base (by omega) member
  constructor
  · rintro ⟨fuel, out, same, denotes, -⟩
    by_contra low
    unfold twosComplementDigits at same
    rw [run, settled, if_neg low, append_nil, nil_append] at same
    by_cases cut : fuel < rounds
    · rw [if_pos cut] at same
      exact nomatch same
    rw [if_neg cut] at same
    have heads := congrArg List.head? (Option.some.inj same)
    rw [head?_map, head?_map, denotes.sign, head?_reverse, getLast?_map] at heads
    by_cases none : m = 0
    · subst none
      refine low ?_
      rw [HighTop, Nat.digits_zero, getLastD_nil]
      omega
    · have some_ : Nat.digits radix m ≠ [] := Nat.digits_ne_nil_iff_ne_zero.mpr none
      have first := Nat.getLast_digit_ne_zero radix none
      rw [getLast?_eq_some_getLast some_] at heads
      have equal : radix - 1 - (Nat.digits radix m).getLast some_ = radix - 1 :=
        digitChar_injective upper _ (by omega) _ (by omega) (Option.some.inj heads)
      omega
  · intro high
    have found : settled radix m = (Nat.digits radix m).map (radix - 1 - ·) ++ [radix - 1] := by
      rw [settled, if_pos high]
    refine ⟨rounds, (settled radix m).reverse, ?_, ⟨?_, ?_, ?_⟩, fun other denotes => ?_⟩
    · rw [twosComplementDigits, run, if_neg (Nat.lt_irrefl _)]
      rfl
    · intro d member
      rw [mem_reverse, found, mem_append, mem_singleton, mem_map] at member
      rcases member with ⟨e, _, rfl⟩ | rfl <;> omega
    · have complement := congrArg (Nat.cast : Nat → Int) (ofDigits_complement digits)
      rw [Nat.ofDigits_digits, Nat.cast_pow] at complement
      rw [reverse_reverse, length_reverse, found, Nat.ofDigits_append, Nat.ofDigits_singleton,
        length_append, length_map, length_singleton, pow_succ, Nat.cast_add, Nat.cast_mul,
        Nat.cast_sub (by omega), mul_sub, Nat.cast_pow]
      omega
    · rw [head?_reverse, found]
      exact getLast?_concat
    · obtain ⟨some_, least⟩ := denotes.least (by omega)
      have short := (Nat.digits_length_le_iff (show 1 < radix by omega) m).mpr
        (show m < radix ^ (other.length - 1) by zify; omega)
      rw [length_reverse, found, length_append, length_map, length_singleton]
      omega

/-- `"%x" % -9` is `..f7`. -/
theorem twosExact_iff_minus_nine : (-9 : Int) < 0 ∧
    twosComplementDigits 2 (-9) 16 false = some ['f', '7'] ∧ TwosExact (-9) 16 false :=
  ⟨by decide, by decide, (twosExact_iff (-9) 16 false (by decide) (by decide)).mpr (by decide)⟩

/-- `"%x" % -5` is `..b`, and `..fb` would have the sign digit. -/
theorem twosComplementDigits_no_sign :
    twosComplementDigits 1 (-5) 16 false = some ['b'] ∧ Denotes (-5) 16 [15, 11] ∧
      ¬ TwosExact (-5) 16 false := by
  refine ⟨by decide, ⟨by decide, by decide, rfl⟩, ?_⟩
  rintro ⟨fuel, ds, same, denotes, -⟩
  obtain ⟨rest, rfl⟩ := head?_eq_some_iff.mp denotes.sign
  cases fuel with
  | zero => exact nomatch same
  | succ fuel =>
    have first : some 'b' = some 'f' := congrArg (fun out => out.bind List.head?) same
    exact absurd first (by decide)

end Zeo.Numeric
