import Zeo.Numeric.Rational

/-!
# Arithmetic sequences

A sequence of exact numbers is walked by repeated `+` until it passes its limit. Its size and its
elements are also computed without a walk: the size from the floor of a quotient, an element as
`begin + i * step`. All three agree.
-/

namespace Zeo.Numeric

/-- `tower_binop!` on exact numbers: the lane of two Integers, or that of Rationals. -/
def tower (int : IntValue → IntValue → IntValue) (rat : Exact → Exact → Except String Exact) :
    Exact → Exact → Except String Exact
  | .integer x, .integer y => .ok (.integer (int x y))
  | a, b => rat a b

/-- `num_add` on exact numbers. -/
def numAdd : Exact → Exact → Except String Exact := tower intAdd ratAdd

/-- `num_sub` on exact numbers. -/
def numSub : Exact → Exact → Except String Exact := tower intSub ratSub

/-- `num_mul` on exact numbers. -/
def numMul : Exact → Exact → Except String Exact := tower intMul ratMul

/-- `num_quo` on exact numbers, both lanes of which divide as Rationals. -/
def numQuo : Exact → Exact → Except String Exact := ratDiv

/-- `num_cmp` on exact numbers. -/
def numCmp : Exact → Exact → Int
  | .integer x, .integer y =>
    match intOrd x y with
    | .lt => -1
    | .eq => 0
    | .gt => 1
  | a, b => ratCmp a b

def descending (step : Exact) : Bool := numCmp step (.integer (.int 0)) == -1

def past (step limit cur : Exact) : Bool :=
  if descending step then numCmp cur limit < 0 else 0 < numCmp cur limit

/-- `step_walk` on exact numbers, from where it stands, with the callback it drives. -/
def stepWalk {σ : Type} (f : σ → Exact → Except String σ) (limit : Option Exact) (step : Exact)
    (excludeEnd : Bool) : Nat → Exact → σ → Option (Except String σ)
  | 0, _, _ => none
  | fuel + 1, cur, s =>
    if limit.any fun limit => past step limit cur || (excludeEnd && numCmp cur limit == 0) then
      some (.ok s)
    else
      match f s cur with
      | .error message => some (.error message)
      | .ok s =>
        match numAdd cur step with
        | .error message => some (.error message)
        | .ok next => stepWalk f limit step excludeEnd fuel next s

/-- `step_hops` on exact numbers. -/
def stepHops (begin limit step : Exact) : Except String Exact := do
  let span ← numSub limit begin
  let quotient ← numQuo span step
  pure (.integer (numFloorExact quotient))

def stepNth (begin step i : Exact) : Except String Exact := do
  let offset ← numMul i step
  numAdd begin offset

/-- `step_size` on exact numbers; `none` is the infinity of a walk without a limit. -/
def stepSize (begin : Exact) (limit : Option Exact) (step : Exact) (excludeEnd : Bool) :
    Except String (Option Exact) :=
  match limit with
  | none => .ok none
  | some limit =>
    if past step limit begin then .ok (some (.integer (.int 0)))
    else do
      let hops ← stepHops begin limit step
      let last ← if excludeEnd then some <$> stepNth begin step hops else pure none
      if last.any (numCmp · limit == 0) then pure (some hops)
      else some <$> numAdd hops (.integer (.int 1))

/-- The number does not pass the limit of a walk. -/
def Kept (step limit : ℚ) (excludeEnd : Bool) (x : ℚ) : Prop :=
  (if step < 0 then limit ≤ x else x ≤ limit) ∧ (excludeEnd = true → x ≠ limit)

/-- A number that a computation answers, in its own payload. -/
def Gives (answer : Except String Exact) (x : ℚ) : Prop :=
  ∃ r : Exact, answer = .ok r ∧ r.Canonical ∧ r.value = x

/-- What a walk yields, what is computed without it, and what there is to yield. -/
structure StepLaws (begin limit step : Exact) (excludeEnd : Bool) (elems : List Exact) : Prop where
  walk : ∀ (σ : Type) (f : σ → Exact → Except String σ) (s : σ) (fuel : Nat), elems.length < fuel →
    stepWalk f (some limit) step excludeEnd fuel begin s = some (elems.foldlM f s)
  size : ∃ n, stepSize begin (some limit) step excludeEnd = .ok (some (.integer n)) ∧
    toBigint n = elems.length
  nth : ∀ i : IntValue, i.Canonical →
    Gives (stepNth begin step (.integer i)) (begin.value + toBigint i * step.value)
  values : ∀ i (inside : i < elems.length),
    (elems.get ⟨i, inside⟩).value = begin.value + i * step.value
  kept : ∀ i : ℕ, i < elems.length ↔
    Kept step.value limit.value excludeEnd (begin.value + i * step.value)

theorem kept_iff {b e s : ℚ} (nonzero : s ≠ 0) (excludeEnd : Bool) (i : ℕ) :
    Kept s e excludeEnd (b + i * s) ↔
      (i : ℚ) ≤ (e - b) / s ∧ (excludeEnd = true → (i : ℚ) ≠ (e - b) / s) := by
  unfold Kept
  rw [ne_eq, ne_eq, eq_div_iff nonzero, eq_sub_iff_add_eq']
  refine and_congr ?_ Iff.rfl
  rcases nonzero.lt_or_gt with negative | positive
  · rw [if_pos negative, le_div_iff_of_neg negative, sub_le_iff_le_add']
  · rw [if_neg positive.not_gt, le_div_iff₀ positive, le_sub_iff_add_le']

section

variable {a b : Exact} (left : a.Canonical) (right : b.Canonical)
include left right

theorem tower_gives {int : IntValue → IntValue → IntValue}
    {rat : Exact → Exact → Except String Exact} {z : Int → Int → Int} {op : ℚ → ℚ → ℚ}
    (ints : ∀ x y, Answers (int x y) (z (toBigint x) (toBigint y)))
    (cast : ∀ x y : Int, ((z x y : Int) : ℚ) = op x y)
    (rats : rat a b = .ok (.ofRat (op a.value b.value))) :
    Gives (tower int rat a b) (op a.value b.value) := by
  have lane : Gives (rat a b) (op a.value b.value) :=
    ⟨_, rats, Exact.canonical_ofRat _, Exact.value_ofRat _⟩
  cases a with
  | rational => exact lane
  | integer x =>
    cases b with
    | rational => exact lane
    | integer y =>
      obtain ⟨holds, canonical⟩ := ints x y
      exact ⟨_, rfl, canonical, by rw [Exact.value, holds, cast]; rfl⟩

theorem numArith_gives : Gives (numAdd a b) (a.value + b.value) ∧
    Gives (numSub a b) (a.value - b.value) ∧ Gives (numMul a b) (a.value * b.value) := by
  obtain ⟨add, sub, mul⟩ := ratArith_eq left right
  exact ⟨tower_gives left right intAdd_answers Int.cast_add add,
    tower_gives left right intSub_answers Int.cast_sub sub,
    tower_gives left right intMul_answers Int.cast_mul mul⟩

theorem numCmp_sign : (numCmp a b < 0 ↔ a.value < b.value) ∧
    (numCmp a b = -1 ↔ a.value < b.value) ∧ (numCmp a b = 0 ↔ a.value = b.value) ∧
    (0 < numCmp a b ↔ b.value < a.value) := by
  have same : numCmp a b = ratCmp a b := by
    cases a with
    | rational => rfl
    | integer x =>
      cases b with
      | rational => rfl
      | integer y =>
        cases order : compare (toBigint x) (toBigint y) <;>
          simp [numCmp, ratCmp, intOrd_eq left right, asRatio, order]
  rw [same, ratCmp_eq left right]
  rcases lt_trichotomy a.value b.value with lt | eq | gt
  · simp [lt, lt.ne, lt.le]
  · simp [eq]
  · simp [gt, gt.not_gt, gt.ne']

end

section

variable {begin limit step cur : Exact} (stepOk : step.Canonical) (limitOk : limit.Canonical)

include stepOk in
theorem descending_iff : descending step = true ↔ step.value < 0 := by
  have zero : (Exact.integer (.int 0)).value = 0 := Int.cast_zero
  rw [descending, beq_iff_eq, (numCmp_sign (b := .integer (.int 0)) stepOk (answers_int rfl).2).2.1,
    zero]

include stepOk limitOk

theorem past_iff (curOk : cur.Canonical) :
    past step limit cur = true ↔ ¬Kept step.value limit.value false cur.value := by
  obtain ⟨below, -, -, above⟩ := numCmp_sign curOk limitOk
  unfold past Kept
  by_cases down : step.value < 0
  · rw [if_pos ((descending_iff stepOk).mpr down), if_pos down, decide_eq_true_iff, below]
    simp
  · rw [if_neg (mt (descending_iff stepOk).mp down), if_neg down, decide_eq_true_iff, above]
    simp

theorem stops_iff (curOk : cur.Canonical) (excludeEnd : Bool) :
    (past step limit cur || (excludeEnd && numCmp cur limit == 0)) = true ↔
      ¬Kept step.value limit.value excludeEnd cur.value := by
  rw [Bool.or_eq_true, past_iff stepOk limitOk curOk, Bool.and_eq_true, beq_iff_eq,
    (numCmp_sign curOk limitOk).2.2.1]
  unfold Kept
  tauto

theorem stepHops_eq (beginOk : begin.Canonical) (nonzero : step.value ≠ 0) :
    stepHops begin limit step =
      .ok (.integer (intValue ⌊(limit.value - begin.value) / step.value⌋)) := by
  obtain ⟨span, isSpan, spanOk, value⟩ := (numArith_gives limitOk beginOk).2.1
  unfold stepHops
  rw [isSpan]
  change (ratDiv span step >>= _) = _
  rw [ratDiv_eq spanOk stepOk nonzero, value, ← numFloorExact_ofRat]
  rfl

omit limitOk in
theorem stepNth_gives (beginOk : begin.Canonical) {i : Exact} (ok : i.Canonical) :
    Gives (stepNth begin step i) (begin.value + i.value * step.value) := by
  obtain ⟨offset, isOffset, offsetOk, value⟩ := (numArith_gives ok stepOk).2.2
  unfold stepNth
  rw [isOffset, ← value]
  exact (numArith_gives beginOk offsetOk).1

theorem stepSize_counts (beginOk : begin.Canonical) (nonzero : step.value ≠ 0)
    (excludeEnd : Bool) :
    ∃ n, stepSize begin (some limit) step excludeEnd = .ok (some (.integer n)) ∧
      0 ≤ toBigint n ∧ ∀ i : ℕ, (i : Int) < toBigint n ↔
        Kept step.value limit.value excludeEnd (begin.value + i * step.value) := by
  have hops := stepHops_eq stepOk limitOk beginOk nonzero
  have kept := kept_iff (b := begin.value) (e := limit.value) nonzero
  generalize isQ : (limit.value - begin.value) / step.value = q at hops kept
  have first : past step limit begin = true ↔ q < 0 := by
    have start := kept false 0
    rw [Nat.cast_zero, zero_mul, add_zero] at start
    rw [past_iff stepOk limitOk beginOk, start]
    simp
  obtain ⟨isHops, hopsOk⟩ := intValue_answers ⌊q⌋
  obtain ⟨last, isLast, lastOk, value⟩ :=
    stepNth_gives stepOk beginOk (i := .integer (intValue ⌊q⌋)) hopsOk
  have lands : numCmp last limit = 0 ↔ ⌊q⌋ = q := by
    rw [(numCmp_sign lastOk limitOk).2.2.1, value, Exact.value, isHops, ← eq_sub_iff_add_eq',
      ← eq_div_iff nonzero, isQ]
  simp only [kept]
  unfold stepSize
  dsimp only
  by_cases far : past step limit begin = true
  · rw [if_pos far]
    refine ⟨.int 0, rfl, le_rfl, fun i => iff_of_false (Int.natCast_nonneg i).not_gt fun kept => ?_⟩
    exact (kept.1.trans_lt (first.mp far)).not_ge (Nat.cast_nonneg i)
  · have nonneg : 0 ≤ ⌊q⌋ := Int.floor_nonneg.mpr (not_lt.mp (mt first.mpr far))
    have more := (intAdd_answers (intValue ⌊q⌋) (.int 1)).1
    rw [isHops] at more
    change _ = ⌊q⌋ + 1 at more
    rw [if_neg far, hops]
    cases excludeEnd with
    | false =>
      refine ⟨_, rfl, by omega, fun i => ?_⟩
      rw [more, Int.lt_add_one_iff, Int.le_floor]
      simp
    | true =>
      have below (i : ℕ) : i < ⌈q⌉ ↔ i ≤ q ∧ (true = true → i ≠ q) := by
        rw [Int.lt_ceil, lt_iff_le_and_ne]
        simp
      by_cases whole : ⌊q⌋ = q
      · have top : ⌈q⌉ = ⌊q⌋ := by rw [← whole, Int.ceil_intCast, Int.floor_intCast]
        refine ⟨intValue ⌊q⌋, ?_, by omega, fun i => by rw [isHops, ← top, below]⟩
        simp only [bind, Except.bind, isLast]
        exact if_pos (beq_iff_eq.mpr (lands.mpr whole))
      · have top : ⌈q⌉ = ⌊q⌋ + 1 := by
          rw [Int.ceil_eq_floor_add_one_iff_notMem]
          rintro ⟨z, same⟩
          exact whole (by rw [← same, Int.floor_intCast])
        refine ⟨intAdd (intValue ⌊q⌋) (.int 1), ?_, by omega, fun i => by rw [more, ← top, below]⟩
        simp only [bind, Except.bind, isLast]
        exact if_neg (mt beq_iff_eq.mp (mt lands.mp whole))

theorem stepWalk_yields {excludeEnd : Bool} {n : ℕ} (curOk : cur.Canonical)
    (kept : ∀ i : ℕ, i < n ↔ Kept step.value limit.value excludeEnd (cur.value + i * step.value)) :
    ∃ elems : List Exact, elems.length = n ∧
      (∀ i (inside : i < elems.length),
        (elems.get ⟨i, inside⟩).value = cur.value + i * step.value) ∧
      ∀ (σ : Type) (f : σ → Exact → Except String σ) (s : σ) (fuel : ℕ), n < fuel →
        stepWalk f (some limit) step excludeEnd fuel cur s = some (elems.foldlM f s) := by
  induction n generalizing cur with
  | zero =>
    have stop := (stops_iff stepOk limitOk curOk excludeEnd).mpr fun stays =>
      lt_irrefl 0 ((kept 0).mpr (by simpa using stays))
    refine ⟨[], rfl, nofun, fun σ f s fuel enough => ?_⟩
    obtain ⟨fuel, rfl⟩ := Nat.exists_eq_add_one.mpr enough
    exact if_pos stop
  | succ n ih =>
    have go := (stops_iff stepOk limitOk curOk excludeEnd).not_left.mpr
      (by simpa using (kept 0).mp n.succ_pos)
    obtain ⟨next, isNext, nextOk, value⟩ := (numArith_gives curOk stepOk).1
    have later i : next.value + i * step.value = cur.value + (i + 1 : ℕ) * step.value := by
      rw [value]
      push_cast
      ring
    have rest := fun i : ℕ => Nat.succ_lt_succ_iff.symm.trans (kept (i + 1))
    simp only [← later] at rest
    obtain ⟨elems, length, values, walks⟩ := ih nextOk rest
    refine ⟨cur :: elems, congrArg (· + 1) length, fun i inside => ?_, fun σ f s fuel enough => ?_⟩
    · cases i with
      | zero => simp
      | succ i => exact (values i (Nat.lt_of_succ_lt_succ inside)).trans (later i)
    · obtain ⟨fuel, rfl⟩ := Nat.exists_eq_add_one.mpr (Nat.zero_lt_of_lt enough)
      rw [stepWalk, Option.any_some, if_neg go, List.foldlM_cons]
      cases f s cur with
      | error message => rfl
      | ok s =>
        rw [isNext]
        exact walks σ f s fuel (Nat.lt_of_succ_lt_succ enough)

end

/-- The walk, the size and the elements of a sequence agree. -/
theorem step_laws (begin limit step : Exact) (beginOk : begin.Canonical)
    (limitOk : limit.Canonical) (stepOk : step.Canonical) (nonzero : step.value ≠ 0)
    (excludeEnd : Bool) : ∃ elems, StepLaws begin limit step excludeEnd elems := by
  obtain ⟨n, isSize, nonneg, counts⟩ := stepSize_counts stepOk limitOk beginOk nonzero excludeEnd
  obtain ⟨size, isN⟩ := Int.eq_ofNat_of_zero_le nonneg
  simp only [isN, Nat.cast_lt] at counts
  obtain ⟨elems, rfl, values, walks⟩ := stepWalk_yields stepOk limitOk beginOk counts
  exact ⟨elems, walks, ⟨n, isSize, isN⟩, fun i ok => stepNth_gives stepOk beginOk ok, values, counts⟩

/-- From two down to one by a half. -/
theorem step_laws_down :
    ∃ elems, StepLaws (.integer (.int 2)) (.integer (.int 1)) (.rational (-1) 2) true elems :=
  step_laws (.integer (.int 2)) (.integer (.int 1)) (.rational (-1) 2) (answers_int rfl).2
    (answers_int rfl).2 ⟨by decide, by decide⟩ (by norm_num [Exact.value]) true

end Zeo.Numeric
