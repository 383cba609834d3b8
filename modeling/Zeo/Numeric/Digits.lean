import Zeo.Numeric.Integer

/-!
# The digits of an Integer

`Integer#digits` divides by its base until the quotient is zero. A base given as an Integer is
checked before the loop; one that comes out of a `to_int` conversion is not.
-/

namespace Zeo.Numeric

variable {σ : Type}

/-- The argument of `digits`. `to_int` runs Ruby code, so what it answers is part of the call. -/
inductive BaseArg (σ : Type) where
  | absent
  | integer (v : IntValue)
  /-- Any other value, with the Integer or the signal that `to_int` answers for it. -/
  | other (converted : Except σ IntValue)

/-- How a call of `digits` ends without a value. -/
inductive DigitsError (σ : Type) where
  | raised (cls message : String)
  | signal (s : σ)
  | panic (message : String)

/-- Whether the call ends with a Ruby signal. -/
def DigitsError.raises : DigitsError σ → Prop
  | .panic _ => False
  | _ => True

/-- The base that `digits` divides by. -/
def BaseArg.base : BaseArg σ → Except (DigitsError σ) Int
  | .absent => .ok 10
  | .integer v =>
    if toBigint v < 0 then .error (.raised "ArgumentError" "negative radix")
    else if toBigint v < 2 then
      .error (.raised "ArgumentError" ("invalid radix " ++ toString (toBigint v)))
    else .ok (toBigint v)
  | .other (.error s) => .error (.signal s)
  | .other (.ok v) => .ok (toBigint v)

/-- The loop of `digits`, for at most `fuel` rounds. -/
def digitsLoop (base : Int) :
    Nat → Int → List IntValue → Option (Except (DigitsError σ) (List IntValue))
  | 0, _, _ => none
  | fuel + 1, n, out =>
    if base = 0 then some (.error (.panic "attempt to divide by zero"))
    else
      let out := out ++ [intValue (n.fmod base)]
      if n.fdiv base = 0 then some (.ok out) else digitsLoop base fuel (n.fdiv base) out

/-- `Integer#digits`. -/
def digits (fuel : Nat) (recv : IntValue) (arg : BaseArg σ) :
    Option (Except (DigitsError σ) (List IntValue)) :=
  match arg.base with
  | .error e => some (.error e)
  | .ok base =>
    if toBigint recv < 0 then some (.error (.raised "Math::DomainError" "out of domain"))
    else digitsLoop base fuel (toBigint recv) []

/-- The number that digits denote, the least significant one first. -/
def digitsValue (base : Int) : List Int → Int
  | [] => 0
  | d :: ds => d + base * digitsValue base ds

structure IsDigits (n base : Int) (ds : List Int) : Prop where
  nonempty : ds ≠ []
  range : ∀ d ∈ ds, 0 ≤ d ∧ d < base
  value : digitsValue base ds = n
  last : n ≠ 0 → ds.getLast? ≠ some 0

/-- The call raises, or it ends with the digits of its receiver. -/
def DigitsKept (recv : IntValue) (arg : BaseArg σ) : Prop :=
  ∃ fuel outcome, digits fuel recv arg = some outcome ∧
    ((∃ e, outcome = .error e ∧ e.raises) ∨
      ∃ base ds, arg.base = .ok base ∧ outcome = .ok (ds.map intValue) ∧
        IsDigits (toBigint recv) base ds)

/-- A base that `to_int` answers is 2 or more, or it is 1 and the receiver 0. -/
def BaseFits (recv : IntValue) (arg : BaseArg σ) : Prop :=
  ∀ v, arg = .other (.ok v) → 2 ≤ toBigint v ∨ toBigint v = 1 ∧ toBigint recv = 0

/-- A call without a base raises, and a base below 2 comes out of a conversion. -/
theorem BaseArg.base_cases (arg : BaseArg σ) :
    (∃ e, arg.base = .error e ∧ e.raises) ∨ (∃ b, arg.base = .ok b ∧ 2 ≤ b) ∨
      ∃ v, arg = .other (.ok v) := by
  cases arg with
  | absent => exact .inr (.inl ⟨10, rfl, by decide⟩)
  | integer v =>
    rw [base]
    split
    · exact .inl ⟨_, rfl, trivial⟩
    · split
      · exact .inl ⟨_, rfl, trivial⟩
      · exact .inr (.inl ⟨_, rfl, by omega⟩)
  | other converted =>
    cases converted with
    | error s => exact .inl ⟨_, rfl, trivial⟩
    | ok v => exact .inr (.inr ⟨v, rfl⟩)

theorem IsDigits.single {n base : Int} (nonneg : 0 ≤ n) (below : n < base) :
    IsDigits n base [n] where
  nonempty := List.cons_ne_nil _ _
  range := by
    intro d mem
    rw [List.mem_singleton.mp mem]
    exact ⟨nonneg, below⟩
  value := by simp [digitsValue]
  last := fun nonzero zero => nonzero (Option.some.inj zero)

/-- With a base of 2 or more, more rounds than the number end the loop with its digits. -/
theorem digitsLoop_ends {base : Int} (large : 2 ≤ base) {n : Int} (nonneg : 0 ≤ n)
    {fuel : Nat} (enough : n < fuel) (out : List IntValue) :
    ∃ ds, digitsLoop (σ := σ) base fuel n out = some (.ok (out ++ ds.map intValue)) ∧
      IsDigits n base ds := by
  induction fuel generalizing n out with
  | zero => omega
  | succ fuel ih =>
    rw [digitsLoop, if_neg (by omega), Int.fdiv_eq_ediv_of_nonneg n (by omega),
      Int.fmod_eq_emod_of_nonneg n (by omega)]
    have split := Int.emod_add_mul_ediv n base
    have low := Int.emod_nonneg n (show base ≠ 0 by omega)
    have below := Int.emod_lt_of_pos n (show 0 < base by omega)
    have quotient : 0 ≤ n / base := Int.ediv_nonneg nonneg (by omega)
    by_cases done : n / base = 0
    · rw [done, Int.mul_zero, Int.add_zero] at split
      rw [if_pos done, split]
      exact ⟨[n], rfl, .single nonneg (by omega)⟩
    · have positive : 0 < n := nonneg.lt_of_ne' fun zero => done (by rw [zero, Int.zero_ediv])
      have smaller := Int.ediv_lt_self_of_pos_of_ne_one positive (show base ≠ 1 by omega)
      obtain ⟨ds, ends, rest⟩ := ih quotient (by omega) (out ++ [intValue (n % base)])
      refine ⟨n % base :: ds, ?_, List.cons_ne_nil _ _, ?_, ?_, ?_⟩
      · rw [if_neg done, ends, List.append_assoc]
        rfl
      · intro d mem
        cases List.mem_cons.mp mem with
        | inl first => omega
        | inr later => exact rest.range d later
      · rw [digitsValue, rest.value, split]
      · intro _
        rw [List.getLast?_cons_of_ne_nil rest.nonempty]
        exact rest.last done

/-- With the base 1 the loop does not end, unless it begins at 0. -/
theorem digitsLoop_one {n : Int} (nonzero : n ≠ 0) (fuel : Nat) (out : List IntValue) :
    digitsLoop (σ := σ) 1 fuel n out = none := by
  induction fuel generalizing out with
  | zero => rfl
  | succ fuel ih =>
    rw [digitsLoop, Int.fdiv_one, if_neg nonzero]
    exact ih _

theorem digitsLoop_not_raises {base n : Int} {fuel : Nat} {out : List IntValue}
    {e : DigitsError σ} (ends : digitsLoop base fuel n out = some (.error e)) : ¬e.raises := by
  induction fuel generalizing n out with
  | zero => cases ends
  | succ fuel ih =>
    rw [digitsLoop] at ends
    split at ends
    · cases ends
      exact id
    · split at ends
      · cases ends
      · exact ih ends

theorem digits_eq_loop {recv : IntValue} (nonneg : 0 ≤ toBigint recv) {arg : BaseArg σ}
    {base : Int} (given : arg.base = .ok base) (fuel : Nat) :
    digits fuel recv arg = digitsLoop base fuel (toBigint recv) [] := by
  unfold digits
  rw [given]
  exact if_neg (by omega)

/-- For an Integer that is not negative, `digits` raises or ends with its digits, exactly where a
base out of a conversion is 2 or more, or is 1 for the receiver 0. -/
theorem digitsKept_iff (recv : IntValue) (nonneg : 0 ≤ toBigint recv) (arg : BaseArg σ) :
    DigitsKept recv arg ↔ BaseFits recv arg := by
  have large {b : Int} (given : arg.base = .ok b) (two : 2 ≤ b) : DigitsKept recv arg := by
    have enough : toBigint recv < ((toBigint recv).toNat + 1 : Nat) := by omega
    obtain ⟨ds, ends, isDigits⟩ := digitsLoop_ends two nonneg enough []
    rw [← digits_eq_loop nonneg given] at ends
    exact ⟨_, _, ends, .inr ⟨b, ds, given, rfl, isDigits⟩⟩
  constructor
  · rintro ⟨fuel, outcome, ends, kept⟩ v rfl
    rw [digits_eq_loop nonneg rfl] at ends
    by_contra small
    rcases kept with ⟨e, rfl, raises⟩ | ⟨base, ds, given, -, isDigits⟩
    · exact digitsLoop_not_raises ends raises
    · -- A base of 0 or less has no digit, and the base 1 leaves the loop only from 0.
      cases given
      obtain ⟨d, mem⟩ := List.exists_mem_of_ne_nil ds isDigits.nonempty
      have bounds := isDigits.range d mem
      rw [show toBigint v = 1 by omega, digitsLoop_one (by omega)] at ends
      cases ends
  · intro fits
    rcases arg.base_cases with ⟨e, given, raises⟩ | ⟨b, given, two⟩ | ⟨v, rfl⟩
    · refine ⟨0, .error e, ?_, .inl ⟨e, rfl, raises⟩⟩
      unfold digits
      rw [given]
    · exact large given two
    · rcases fits v rfl with two | ⟨one, zero⟩
      · exact large rfl two
      · have given : (BaseArg.other (σ := σ) (.ok v)).base = .ok 1 := congrArg Except.ok one
        have ends := digits_eq_loop nonneg given 1
        rw [zero] at ends
        refine ⟨1, _, ends, .inr ⟨1, [0], given, rfl, ?_⟩⟩
        rw [zero]
        exact .single (by decide) (by decide)

/-- The digits of 10 in the base that 2.5 converts to. -/
theorem digitsKept_ten : DigitsKept (σ := Empty) (.int 10) (.other (.ok (.int 2))) := by
  apply (digitsKept_iff _ (by decide) _).mpr
  intro v same
  cases same
  exact .inl (by decide)

/-- In the base that 1.5 converts to, `digits` of 10 neither raises nor ends. -/
theorem digits_one_endless : ¬DigitsKept (σ := Empty) (.int 10) (.other (.ok (.int 1))) := by
  rintro ⟨fuel, outcome, ends, -⟩
  rw [digits_eq_loop (by decide) rfl, show toBigint (.int 1) = 1 from rfl,
    digitsLoop_one (by decide)] at ends
  cases ends

end Zeo.Numeric
