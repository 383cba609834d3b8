import Mathlib.Data.Nat.Digits.Lemmas
import Zeo.Numeric.Round

/-!
# Rounding a decimal text to significant digits

`%e` and `%g` round the shortest decimal of a float. The digits are bytes of the text and the value
of digits `ds` with exponent `e` is `0.ds × 10^e`. The exponent is an integer: the callers pass the
exponent of a float.
-/

namespace Zeo.Numeric

open List

/-- The loop of `round_significant` that adds one before place `i`, and whether it ran out of the
front. -/
def carry (kept : List Nat) : Nat → List Nat × Bool
  | 0 => (kept, true)
  | i + 1 =>
    let digit := kept.getD i 0
    if digit = 9 then carry (kept.set i 0) i else (kept.set i (digit + 1), false)

variable (kept : List Nat)

/-- The `round_up` of `round_significant`. -/
def roundUp (first : Nat) (others : List Nat) : Bool :=
  if '5'.toNat < first then true
  else if first < '5'.toNat then false
  else if others.any (· != '0'.toNat) then true
  else kept.getLast?.any (· % 2 == 1)

/-- The `if round_up` of `round_significant`. -/
def carried (up : Bool) (kept : List Nat) (exp : Int) : List Nat × Int :=
  if up then
    let (kept, ranOut) := carry kept kept.length
    if ranOut then ((1 :: kept).dropLast, exp + 1) else (kept, exp)
  else (kept, exp)

def roundSignificant (digits : List Nat) (exp : Int) (sig : Nat) : Option (List Nat × Int) :=
  match digits.drop sig with
  -- no more than `sig` digits
  | [] => none
  | first :: others =>
    let kept := (digits.take sig).map (· - '0'.toNat)
    let rounded := carried (roundUp kept first others) kept exp
    some (rounded.1.map (· + '0'.toNat), rounded.2)

/-- The exponents are `i32`, and from any but the largest the answer's is in the range again. -/
theorem roundSignificant_exp {digits out : List Nat} {exp exp' : Int} {sig : Nat}
    (range : -2 ^ 31 ≤ exp ∧ exp < 2 ^ 31 - 1)
    (rounded : roundSignificant digits exp sig = some (out, exp')) :
    -2 ^ 31 ≤ exp' ∧ exp' < 2 ^ 31 := by
  unfold roundSignificant carried at rounded
  split at rounded
  · cases rounded
  · cases rounded
    dsimp only
    split_ifs <;> dsimp only <;> omega

def text (ds : List Nat) : List Nat := ds.map (· + '0'.toNat)

/-- The number that digits spell, the most significant one first. -/
def spelled (ds : List Nat) : Nat := Nat.ofDigits 10 ds.reverse

/-- `0.ds × 10^e`. -/
def decimal (ds : List Nat) (e : Int) : Rat := spelled ds * 10 ^ (e - ds.length)

/-- No multiple of the unit is nearer than the `m`th, which is even where another is as near. -/
def NearestEven (x unit : Rat) (m : Int) : Prop :=
  ∀ k : Int, k ≠ m →
    |x - m * unit| < |x - k * unit| ∨ |x - m * unit| = |x - k * unit| ∧ Even m

/-- `round_significant` answers `sig` digits of the nearest multiple, and raises the exponent exactly
where the multiple has one digit more. -/
def NearestDigits (ds : List Nat) (e : Int) (sig : Nat) : Prop :=
  ∃ (kept : List Nat) (e' m : Int), roundSignificant (text ds) e sig = some (text kept, e') ∧
    kept.length = sig ∧ (∀ d ∈ kept, d < 10) ∧ decimal kept e' = m * 10 ^ (e - sig) ∧
    NearestEven (decimal ds e) (10 ^ (e - sig)) m ∧ e' = if m = 10 ^ sig then e + 1 else e

variable {ds : List Nat}

theorem spelled_append (front back : List Nat) :
    spelled (front ++ back) = spelled front * 10 ^ back.length + spelled back := by
  rw [spelled, reverse_append, Nat.ofDigits_append, length_reverse, spelled, spelled]
  ring

theorem spelled_cons (d : Nat) (ds : List Nat) :
    spelled (d :: ds) = d * 10 ^ ds.length + spelled ds := by
  have single : spelled [d] = d := Nat.ofDigits_singleton
  rw [← singleton_append, spelled_append, single]

theorem spelled_concat (ds : List Nat) (d : Nat) : spelled (ds ++ [d]) = spelled ds * 10 + d := by
  have single : spelled [d] = d := Nat.ofDigits_singleton
  rw [spelled_append, single, length_singleton, pow_one]

theorem spelled_lt (range : ∀ d ∈ ds, d < 10) : spelled ds < 10 ^ ds.length := by
  rw [← length_reverse]
  exact Nat.ofDigits_lt_base_pow_length (by decide) fun d mem => range d (mem_reverse.mp mem)

theorem spelled_pos_iff (ds : List Nat) : ds.any (· != 0) = true ↔ 0 < spelled ds := by
  induction ds with
  | nil => simp [spelled]
  | cons d ds ih =>
    rw [any_cons, Bool.or_eq_true, ih, spelled_cons]
    simp only [bne_iff_ne]
    have power : 0 < 10 ^ ds.length := by positivity
    constructor
    · rintro (nonzero | later)
      · have := Nat.mul_pos (Nat.pos_of_ne_zero nonzero) power
        omega
      · omega
    · intro positive
      by_cases zero : d = 0
      · exact .inr (by simpa [zero] using positive)
      · exact .inl zero

/-- The carry adds one at its place, and loses a power of ten when it runs out of the front. -/
theorem carry_spelled (front back : List Nat) (range : ∀ d ∈ front ++ back, d < 10) :
    ∃ out ranOut, carry (front ++ back) front.length = (out, ranOut) ∧
      out.length = (front ++ back).length ∧ (∀ d ∈ out, d < 10) ∧
      spelled out + (if ranOut then 10 ^ out.length else 0) =
        spelled (front ++ back) + 10 ^ back.length := by
  -- the place moves to the front, so the induction takes its last digit off
  induction front using List.reverseRecOn generalizing back with
  | nil => exact ⟨back, true, rfl, rfl, range, rfl⟩
  | append_singleton front d ih =>
    have set_eq (x : Nat) : (front ++ [d] ++ back).set front.length x = front ++ x :: back := by
      simp
    have at_place : (front ++ [d] ++ back).getD front.length 0 = d := by simp
    have power : 10 ^ (back.length + 1) = 10 ^ back.length * 10 := pow_succ _ _
    have others : ∀ x < 10, ∀ y ∈ front ++ x :: back, y < 10 := by
      intro x small y mem
      rcases mem_append.mp mem with early | late
      · exact range y (by simp [early])
      · rcases mem_cons.mp late with rfl | late
        · exact small
        · exact range y (by simp [late])
    rw [length_append, length_singleton, carry, at_place]
    by_cases nine : d = 9
    · obtain ⟨out, ranOut, ran, length, small, sum⟩ := ih (0 :: back) (others 0 (by decide))
      refine ⟨out, ranOut, ?_, ?_, small, ?_⟩
      · rw [if_pos nine, set_eq, ran]
      · rw [length]
        simp
      · rw [sum, append_assoc, spelled_append, spelled_append, singleton_append, spelled_cons,
          spelled_cons, length_cons, length_cons, power, nine]
        ring
    · have digit := range d (by simp)
      refine ⟨front ++ (d + 1) :: back, false, ?_, ?_, others (d + 1) (by omega), ?_⟩
      · rw [if_neg nine, set_eq]
      · simp
      · rw [append_assoc, spelled_append, spelled_append, singleton_append, spelled_cons,
          spelled_cons, length_cons, length_cons]
        simp only [Bool.false_eq_true, if_false]
        ring

/-- The rounded digits spell the number that was asked for, or a tenth of it with the exponent
raised where it has one digit more. -/
theorem carried_spelled (up : Bool) {kept : List Nat} (range : ∀ d ∈ kept, d < 10)
    (nonempty : kept ≠ []) (exp : Int) :
    (carried up kept exp).1.length = kept.length ∧ (∀ d ∈ (carried up kept exp).1, d < 10) ∧
      ((carried up kept exp).2 = exp ∧
          spelled (carried up kept exp).1 = spelled kept + up.toNat ∨
        (carried up kept exp).2 = exp + 1 ∧ spelled kept + up.toNat = 10 ^ kept.length ∧
          spelled (carried up kept exp).1 * 10 = 10 ^ kept.length) := by
  cases up with
  | false => exact ⟨rfl, range, .inl ⟨rfl, rfl⟩⟩
  | true =>
    obtain ⟨out, ranOut, ran, length, small, sum⟩ := carry_spelled kept [] (by simpa using range)
    rw [append_nil] at ran length sum
    simp only [carried, if_true, ran]
    have bound := spelled_lt range
    cases ranOut with
    | false => exact ⟨length, small, .inl ⟨rfl, sum⟩⟩
    | true =>
      rw [if_pos rfl, length] at sum
      have sum : spelled out + 10 ^ kept.length = spelled kept + 1 := sum
      have zero : spelled out = 0 := by omega
      cases out using List.reverseRecOn with
      | nil => exact absurd (length_eq_zero_iff.mp length.symm) nonempty
      | append_singleton init d =>
        rw [spelled_concat] at zero
        rw [if_pos rfl, ← cons_append, dropLast_concat]
        rw [length_append, length_singleton] at length
        refine ⟨length, ?_, .inr ⟨rfl, ?_, ?_⟩⟩
        · intro x mem
          rcases mem_cons.mp mem with rfl | mem
          · decide
          · exact small x (by simp [mem])
        · change spelled kept + 1 = _
          omega
        · rw [spelled_cons, ← length, pow_succ]
          omega

theorem last_odd_iff : kept.getLast?.any (· % 2 == 1) = true ↔ ¬ Even (spelled kept) := by
  cases kept using List.reverseRecOn with
  | nil => simp [spelled]
  | append_singleton init d =>
    rw [getLast?_concat, spelled_concat, Nat.even_iff]
    simp only [Option.any_some, beq_iff_eq]
    omega

variable {rest : List Nat}

theorem spelled_split (range : ∀ d ∈ rest, d < 10) :
    (spelled (kept ++ rest) : Int) / 10 ^ rest.length = spelled kept ∧
      (spelled (kept ++ rest) : Int) % 10 ^ rest.length = spelled rest := by
  have short := spelled_lt range
  rw [spelled_append]
  norm_cast
  rw [mul_comm, Nat.mul_add_div (by positivity), Nat.div_eq_of_lt short, Nat.mul_add_mod,
    Nat.mod_eq_of_lt short]
  exact ⟨rfl, rfl⟩

theorem up_spelled (range : ∀ d ∈ rest, d < 10) :
    Up .even (spelled (kept ++ rest) : Nat) (10 ^ rest.length) ↔
      10 ^ rest.length < spelled rest * 2 ∨
        spelled rest * 2 = 10 ^ rest.length ∧ ¬ Even (spelled kept) := by
  obtain ⟨quotient, remainder⟩ := spelled_split kept range
  simp only [Up, TieUp, quotient, remainder, Int.even_coe_nat]
  norm_cast

theorem roundUp_iff {first : Nat} {others : List Nat} (range : ∀ d ∈ first :: others, d < 10) :
    roundUp kept (first + '0'.toNat) (text others) = true ↔
      Up .even (spelled (kept ++ first :: others) : Nat) (10 ^ (first :: others).length) := by
  rw [up_spelled kept range, spelled_cons, length_cons, pow_succ]
  have short := spelled_lt fun d mem => range d (mem_cons_of_mem _ mem)
  have nonzero : (text others).any (· != '0'.toNat) = others.any (· != 0) := by
    rw [text, any_map]
    congr 1
    funext d
    simp [bne]
  have zero : '0'.toNat = 48 := rfl
  have five : '5'.toNat = 53 := rfl
  unfold roundUp
  rw [nonzero]
  rcases lt_trichotomy first 5 with below | rfl | above
  · have scaled := Nat.mul_le_mul_right (10 ^ others.length) (Nat.le_of_lt_succ below)
    rw [if_neg (by omega), if_pos (by omega)]
    simp only [Bool.false_eq_true, false_iff]
    omega
  · rw [if_neg (by omega), if_neg (by omega)]
    by_cases positive : 0 < spelled others
    · rw [if_pos ((spelled_pos_iff others).mpr positive)]
      simp only [true_iff]
      omega
    · rw [if_neg (mt (spelled_pos_iff others).mp positive), last_odd_iff]
      constructor
      · exact fun odd => .inr ⟨by omega, odd⟩
      · rintro (more | ⟨_, odd⟩)
        · omega
        · exact odd
  · have scaled := Nat.mul_le_mul_right (10 ^ others.length) above
    rw [if_pos (by omega)]
    simp only [true_iff]
    omega

/-- Nearness does not depend on the unit. -/
theorem IsNearest.scaled {n p m : Int} (nearest : IsNearest .even n p (p * m)) (positive : 0 < p)
    {u : Rat} (unit : 0 < u) : NearestEven (n * u) (p * u) m := by
  have distance (k : Int) : |n * u - k * (p * u)| = (|n - p * k| : Int) * u := by
    have factored : n * u - k * (p * u) = ((n - p * k : Int) : Rat) * u := by
      push_cast
      ring
    rw [factored, abs_mul, abs_of_pos unit, Int.cast_abs]
  intro k other
  have apart : p * k ≠ p * m := fun same => other (mul_left_cancel₀ positive.ne' same)
  rw [distance, distance]
  rcases nearest.2 _ (Dvd.intro k rfl) apart with closer | ⟨tie, even⟩
  · exact .inl (mul_lt_mul_of_pos_right (by exact_mod_cast closer) unit)
  · have even : Even (p * m / p) := even
    rw [Int.mul_ediv_cancel_left _ positive.ne'] at even
    exact .inr ⟨by rw [tie], even⟩

theorem isNearest_spelled {up : Bool} (range : ∀ d ∈ rest, d < 10)
    (decided : up = true ↔ Up .even (spelled (kept ++ rest) : Nat) (10 ^ rest.length)) :
    IsNearest .even (spelled (kept ++ rest) : Nat) (10 ^ rest.length)
      (10 ^ rest.length * (spelled kept + up.toNat : Nat)) := by
  have power : (0 : Int) < 10 ^ rest.length := by positivity
  have nearest := isNearest_roundHalfMag .even (Int.natCast_nonneg (spelled (kept ++ rest))) power
  rw [roundHalfMag_eq _ (Int.natCast_nonneg _) power, ← Int.ediv_mul_self,
    (spelled_split kept range).1] at nearest
  convert nearest using 1
  cases up with
  | false =>
    rw [if_neg (mt decided.mpr (by decide))]
    exact mul_comm _ _
  | true =>
    rw [if_pos (decided.mp rfl)]
    push_cast [Bool.toNat_true]
    ring

theorem roundSignificant_text (first : Nat) (others : List Nat) (e : Int) :
    roundSignificant (text (kept ++ first :: others)) e kept.length =
      let rounded := carried (roundUp kept (first + '0'.toNat) (text others)) kept e
      some (text rounded.1, rounded.2) := by
  have cut : (text (kept ++ first :: others)).drop kept.length =
      (first + '0'.toNat) :: text others := by simp [text]
  have digits : ((text (kept ++ first :: others)).take kept.length).map (· - '0'.toNat) = kept := by
    simp [text, Function.comp_def]
  rw [roundSignificant, cut]
  simp only [digits]
  rfl

theorem roundSignificant_nearest (range : ∀ d ∈ ds, d < 10) (e : Int) {sig : Nat}
    (positive : 1 ≤ sig) (longer : sig < ds.length) : NearestDigits ds e sig := by
  obtain ⟨kept, first, others, rfl, rfl⟩ : ∃ kept first others,
      ds = kept ++ first :: others ∧ kept.length = sig :=
    ⟨ds.take sig, ds[sig], ds.drop (sig + 1), by simp, by simp; omega⟩
  have late : ∀ d ∈ first :: others, d < 10 := fun d mem => range d (mem_append_right _ mem)
  have early : ∀ d ∈ kept, d < 10 := fun d mem => range d (mem_append_left _ mem)
  have decided := roundUp_iff kept late
  have computed := roundSignificant_text kept first others e
  generalize roundUp kept (first + '0'.toNat) (text others) = up at decided computed
  have value := carried_spelled up early (length_pos_iff.mp positive) e
  generalize carried up kept e = rounded at computed value
  obtain ⟨kept', e'⟩ := rounded
  obtain ⟨length, small, value⟩ := value
  refine ⟨kept', e', (spelled kept + up.toNat : Nat), computed, length, small, ?_, ?_, ?_⟩
  · rw [decimal, length]
    rcases value with ⟨rfl, same⟩ | ⟨rfl, full, tenth⟩
    · rw [← same]
      rfl
    · have shifted : e + 1 - (kept.length : Int) = e - kept.length + 1 := by ring
      rw [full, ← tenth, shifted, zpow_add_one₀ (by norm_num)]
      push_cast
      ring
  · have unit : (0 : Rat) < 10 ^ (e - (kept ++ first :: others).length) :=
      zpow_pos (by norm_num) _
    have scaled := (isNearest_spelled kept late decided).scaled (by positivity) unit
    have units : (10 : Rat) ^ (e - kept.length) = ((10 ^ (first :: others).length : Int) : Rat) *
        10 ^ (e - (kept ++ first :: others).length) := by
      rw [Int.cast_pow, ← zpow_natCast, Int.cast_ofNat, ← zpow_add₀ (by norm_num), length_append]
      congr 1
      push_cast
      ring
    rw [units]
    exact scaled
  · rcases value with ⟨rfl, same⟩ | ⟨rfl, full, _⟩
    · have bound := spelled_lt small
      rw [length, same] at bound
      rw [if_neg (by exact_mod_cast bound.ne)]
    · rw [if_pos (by exact_mod_cast full)]

theorem roundSignificant_nines : NearestDigits [9, 9, 6] 1 2 :=
  roundSignificant_nearest (by decide) 1 (by decide) (by decide)

end Zeo.Numeric
