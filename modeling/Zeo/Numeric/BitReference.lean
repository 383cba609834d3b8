import Zeo.Numeric.Integer

/-!
# Bits of an Integer

`Integer#[]` takes an index, an index and a width, or a range, makes a window of them and answers
the bits of the receiver in it. Index and width are unbounded, the shifts take machine counts.
-/

namespace Zeo.Numeric

open Zeo.Lib

/-- What the conversion of an argument to an Integer comes to. -/
abbrev Converted := Except String Int

/-- The arguments of `Integer#[]`. -/
inductive BitIndex where
  /-- `n[i]`. -/
  | single (index : Converted)
  /-- `n[i, w]`. -/
  | slice (index len : Converted)
  /-- `n[a..b]` and `n[a...b]`, with either end left out. -/
  | range (first last : Option Converted) (exclusive : Bool)

/-- `usize::MAX`. -/
def usizeMax : Nat := 2 ^ 64 - 1

/-- `BigInt::to_usize`. -/
def toUsize (n : Int) : Option Nat := if 0 ≤ n ∧ n < 2 ^ 64 then some n.toNat else none

/-- The window: where it begins and how wide it is, if it ends. -/
def window : BitIndex → Except String (Int × Option Int)
  | .slice index len =>
    match index, len with
    | .ok i, .ok w => .ok (i, some w)
    | .error message, _ => .error message
    | .ok _, .error message => .error message
  | .range none _ _ => .error "The beginless range for Integer#[] results in infinity"
  | .range (some (.error message)) _ _ => .error message
  | .range (some (.ok start)) none _ => .ok (start, none)
  | .range (some (.ok _)) (some (.error message)) _ => .error message
  | .range (some (.ok start)) (some (.ok last)) exclusive =>
    .ok (start, some (last - start + if exclusive then 0 else 1))
  | .single (.error message) => .error message
  | .single (.ok i) => .ok (i, some 1)

/-- The low bits of a shifted number, by the width of the window. -/
def maskWidth (shifted : Int) : Option Int → Int
  | none => shifted
  | some w =>
    if w < 0 then shifted
    else if 0 < w then shifted.land ((1 : Int) <<< (toUsize w).getD usizeMax - 1)
    else 0

def intBitRef (recv : IntValue) (index : BitIndex) : Except String IntValue :=
  match window index with
  | .error message => .error message
  | .ok (shift, width) =>
    let val := toBigint recv
    if shift < 0 then .ok (intValue (maskWidth (val <<< (toUsize (-shift)).getD 0) width))
    else
      match toUsize shift with
      | some s => .ok (intValue (maskWidth (val >>> s) width))
      | none => .ok (.int (if val < 0 ∧ width = none then -1 else 0))

def maskBits (w : Nat) : Nat := min w usizeMax

theorem maskBits_eq (w : Nat) : (toUsize w).getD usizeMax = maskBits w := by
  unfold toUsize maskBits usizeMax
  by_cases small : (w : Int) < 2 ^ 64
  · rw [if_pos ⟨Int.natCast_nonneg w, small⟩]
    simp only [Option.getD_some]
    omega
  · rw [if_neg fun both => small both.2]
    simp only [Option.getD_none]
    omega

theorem maskWidth_eq (x : Int) (w : Nat) : maskWidth x (some w) = x % 2 ^ maskBits w := by
  unfold maskWidth
  dsimp only
  rw [if_neg (by omega)]
  by_cases positive : 0 < (w : Int)
  · rw [if_pos positive, maskBits_eq, Int.shiftLeft_eq, one_mul, land_two_pow_sub_one]
  · have zero : w = 0 := by omega
    rw [zero]
    exact (Int.emod_one x).symm

theorem maskBits_le (w : Nat) : maskBits w ≤ w := Nat.min_le_left _ _

def windowBits (n i : Int) (w : Nat) : Int := shifted n (-i) % 2 ^ w

/-- The machine counts lose nothing of the window. A beginning past `usize` answers zero, so that no
bit may be set there; one as far below leaves the number where it is, so that there may be none
within the mask; and the mask of a wider window than `usize` counts has to cover what is set. -/
def WindowExact (n i : Int) (w : Nat) : Prop :=
  if 2 ^ 64 ≤ i then 2 ^ w ∣ n / 2 ^ i.toNat
  else if i ≤ -2 ^ 64 then 2 ^ max (maskBits w) (w - (-i).toNat) ∣ n
  else windowBits n i w < 2 ^ maskBits w

theorem two_pow_pos_int (k : Nat) : (0 : Int) < 2 ^ k := Int.pow_pos (by decide)

theorem emod_maskBits_iff (x : Int) (w : Nat) :
    x % 2 ^ maskBits w = x % 2 ^ w ↔ x % 2 ^ w < 2 ^ maskBits w :=
  emod_eq_emod_iff (two_pow_pos_int _) (pow_dvd_pow 2 (maskBits_le w)) (two_pow_pos_int _) x

/-- A number that is left where it is has the bits of the shifted one only if all are clear. -/
theorem emod_unshifted_iff (n : Int) {k : Nat} (w : Nat) (far : usizeMax < k) :
    n % 2 ^ maskBits w = n * 2 ^ k % 2 ^ w ↔ 2 ^ max (maskBits w) (w - k) ∣ n := by
  have under : maskBits w ≤ usizeMax := Nat.min_le_right _ _
  have less := maskBits_le w
  have shiftedIff : (2 ^ w) ∣ n * 2 ^ k ↔ 2 ^ (w - k) ∣ n := by
    by_cases short : w ≤ k
    · rw [Nat.sub_eq_zero_of_le short]
      exact iff_of_true (dvd_mul_of_dvd_right (pow_dvd_pow 2 short) n) (one_dvd n)
    · have split : (2 : Int) ^ w = 2 ^ (w - k) * 2 ^ k := by
        rw [← pow_add]
        congr 1
        omega
      rw [split]
      exact mul_dvd_mul_iff_right (two_pow_pos_int k).ne'
  have both : 2 ^ max (maskBits w) (w - k) ∣ n ↔
      2 ^ maskBits w ∣ n ∧ 2 ^ (w - k) ∣ n := by
    constructor
    · intro divides
      exact ⟨(pow_dvd_pow 2 (Nat.le_max_left _ _)).trans divides,
        (pow_dvd_pow 2 (Nat.le_max_right _ _)).trans divides⟩
    · rintro ⟨first, second⟩
      rcases Nat.le_total (maskBits w) (w - k) with le | le
      · rwa [Nat.max_eq_right le]
      · rwa [Nat.max_eq_left le]
  rw [both, ← shiftedIff]
  constructor
  · intro same
    -- the shifted side is a multiple of what bounds the other one
    have multiple : 2 ^ maskBits w ∣ n * 2 ^ k % 2 ^ w := by
      rw [Int.emod_def]
      apply dvd_sub
      · exact dvd_mul_of_dvd_right (pow_dvd_pow 2 (by omega)) n
      · exact dvd_mul_of_dvd_left (pow_dvd_pow 2 less) _
    have zero : n % 2 ^ maskBits w = 0 := by
      rw [← same] at multiple
      have whole := Int.emod_eq_zero_of_dvd multiple
      rwa [Int.emod_emod_of_dvd n dvd_rfl] at whole
    rw [zero] at same
    exact ⟨Int.dvd_of_emod_eq_zero zero, Int.dvd_of_emod_eq_zero same.symm⟩
  · rintro ⟨first, second⟩
    rw [Int.emod_eq_zero_of_dvd first, Int.emod_eq_zero_of_dvd second]

/-- `Integer#[]` answers the bits of its window exactly when the machine counts lose nothing of
it. -/
theorem intBitRef_window_iff (recv : IntValue) (index : BitIndex) (i : Int) (w : Nat)
    (asks : window index = .ok (i, some w)) :
    (∃ r, intBitRef recv index = .ok r ∧ Answers r (windowBits (toBigint recv) i w)) ↔
      WindowExact (toBigint recv) i w := by
  have answer v : (∃ r, Except.ok (ε := String) (intValue v) = .ok r ∧
      Answers r (windowBits (toBigint recv) i w)) ↔ v = windowBits (toBigint recv) i w := by
    have answers := intValue_answers v
    constructor
    · rintro ⟨r, same, value, _⟩
      cases same
      rw [← value, answers.1]
    · rintro rfl
      exact ⟨_, rfl, answers⟩
  unfold intBitRef WindowExact
  rw [asks]
  dsimp only
  by_cases negative : i < 0
  · obtain ⟨k, amount⟩ := Int.eq_ofNat_of_zero_le (a := -i) (by omega)
    have left : shifted (toBigint recv) (-i) = toBigint recv * 2 ^ k := by
      rw [amount, shifted_natCast]
    rw [if_pos negative, answer, maskWidth_eq, if_neg (by omega), amount, Int.shiftLeft_eq]
    unfold windowBits
    rw [left]
    by_cases far : i ≤ -2 ^ 64
    · have past : toUsize k = none := by
        rw [toUsize, if_neg (by omega)]
      rw [if_pos far, past, Option.getD_none, pow_zero, mul_one]
      exact emod_unshifted_iff _ w (by unfold usizeMax; omega)
    · have some_ : toUsize k = some k := by
        rw [toUsize, if_pos (by omega), Int.toNat_natCast]
      rw [if_neg far, some_]
      exact emod_maskBits_iff _ w
  · obtain ⟨k, amount⟩ := Int.eq_ofNat_of_zero_le (a := i) (by omega)
    have right : shifted (toBigint recv) (-i) = toBigint recv / 2 ^ k := by
      rw [amount, shifted_neg]
    rw [if_neg negative]
    by_cases far : 2 ^ 64 ≤ i
    · have past : toUsize i = none := by
        rw [toUsize, if_neg (by omega)]
      have zero : (IntValue.int (if toBigint recv < 0 ∧ some (w : Int) = none then -1 else 0)) =
          intValue 0 := by
        rw [if_neg fun both => Option.some_ne_none _ both.2]
        rfl
      rw [if_pos far, past]
      rw [zero, answer, windowBits, right, eq_comm, amount]
      exact Int.dvd_iff_emod_eq_zero.symm
    · have some_ : toUsize i = some k := by
        rw [toUsize, if_pos (by omega), amount, Int.toNat_natCast]
      have near : ¬ i ≤ -2 ^ 64 := by omega
      rw [if_neg far, if_neg near, some_]
      rw [answer, maskWidth_eq, Int.shiftRight_eq_div_pow]
      unfold windowBits
      rw [right]
      exact emod_maskBits_iff _ w

theorem windowExact_of_machine (n : Int) {i : Int} {w : Nat} (below : i < 2 ^ 64)
    (above : -2 ^ 64 < i) (narrow : w < 2 ^ 64) : WindowExact n i w := by
  have whole : maskBits w = w := by
    unfold maskBits usizeMax
    omega
  unfold WindowExact
  rw [if_neg (not_le.mpr below), if_neg (not_le.mpr above), whole]
  exact Int.emod_lt_of_pos _ (two_pow_pos_int w)

/-- `5[0..1]`. -/
theorem intBitRef_window_range :
    ∃ r, intBitRef (.int 5) (.range (some (.ok 0)) (some (.ok 1)) false) = .ok r ∧
      Answers r (windowBits 5 0 2) :=
  (intBitRef_window_iff (.int 5) (.range (some (.ok 0)) (some (.ok 1)) false) 0 2 rfl).mpr
    (windowExact_of_machine 5 (by decide) (by decide) (by decide))

/-- `(-1)[2**64]` is 0, where every bit of -1 is set. -/
theorem intBitRef_shifted_out :
    intBitRef (.int (-1)) (.single (.ok (2 ^ 64))) = .ok (.int 0) ∧
      windowBits (-1) (2 ^ 64) 1 = 1 := by
  refine ⟨by decide, ?_⟩
  obtain ⟨k, place⟩ : ∃ k : Nat, (2 ^ 64 : Int) = k := ⟨18446744073709551616, by norm_num⟩
  have room := two_pow_pos_int k
  rw [windowBits, place, shifted_neg, ediv_two_pow_of_within (by omega) (by omega)]
  decide

end Zeo.Numeric
