import Mathlib

/-!
# Slices by an arithmetic sequence

`arr[(b..e).step(s)]` turns the sequence into a span of the array and walks it with a stride. A
descending sequence swaps its ends. Machine words are integers, and their sums wrap as in a release
build.
-/

namespace Zeo.Value.ArithSlice

open List

/-- A vector takes no more than `isize::MAX` bytes, and an element no less than eight. -/
structure RArray (α : Type) where
  elems : List α
  fits : elems.length < 2 ^ 60

/-- `arith_seq_parts`, with `Nil` for an absent end. -/
structure ArithSeq where
  begin : Option Int
  finish : Option Int
  step : Int
  excludeEnd : Bool
  words : ∀ v ∈ step :: (begin.toList ++ finish.toList), -2 ^ 63 ≤ v ∧ v < 2 ^ 63

inductive Sliced (α : Type) where
  | nil
  | array (out : List α)
  | argError
  | rangeError
  | panicked
deriving DecidableEq

def wrap (x : Int) : Int := (x + 2 ^ 63) % 2 ^ 64 - 2 ^ 63

variable {α : Type}

/-- `guard[i as usize]`: a negative index is a large one after the cast. -/
def indexed (elems : List α) (i : Int) : Option α := if 0 ≤ i then elems[i.toNat]? else none

def rangeSlice (elems : List α) (start finish : Option Int) (exclusive : Bool) : Sliced α :=
  let n : Int := elems.length
  let s := match start with
    | some v => if v < 0 then wrap (v + n) else v
    | none => 0
  let e := match finish with
    | some v =>
      let v := if v < 0 then wrap (v + n) else v
      if exclusive then wrap (v - 1) else v
    | none => n - 1
  if s < 0 ∨ n < s then .nil
  else
    let e := min e (n - 1)
    if e < s then .array [] else .array ((elems.drop s.toNat).take (e - s + 1).toNat)

/-- The begin and the length of the span of `arith_seq_slice`, if they are in range. -/
def span (n : Int) (low : Option Int) (bump : Int) (high : Option Int) (excl : Bool) :
    Option (Int × Int) :=
  let b := wrap (low.getD 0 + bump)
  let e := high.getD (-1)
  let excl := excl && high.isSome
  let b := if b < 0 then wrap (b + n) else b
  if b < 0 then none
  else
    let e := if e < 0 then wrap (e + n) else e
    let e := if excl then e else wrap (e + 1)
    let len := max (wrap (e - b)) 0
    if n < b ∨ n < len then none else some (b, len)

/-- The loops of `arith_seq_slice`, which differ in their condition. -/
def walk (elems : List α) (stride : Int) (more : Int → Bool) : Nat → Int → List α → Option (Sliced α)
  | 0, _, _ => none
  | fuel + 1, i, out =>
    if more i then
      match indexed elems i with
      | some v => walk elems stride more fuel (wrap (i + stride)) (out ++ [v])
      | none => some .panicked
    else some (.array out)

/-- `arith_seq_slice`. A loop that goes on for more rounds than there are elements has no answer. -/
def arithSeqSlice (elems : List α) (seq : ArithSeq) : Option (Sliced α) :=
  let n : Int := elems.length
  let stride := seq.step
  if stride = 0 then some .argError
  else if stride = 1 then some (rangeSlice elems seq.begin seq.finish seq.excludeEnd)
  else
    let (low, high, excl) :=
      if stride < 0 then (seq.finish, seq.begin, false) else (seq.begin, seq.finish, seq.excludeEnd)
    let bump := if stride < 0 ∧ seq.excludeEnd ∧ low.isSome then 1 else 0
    match span n low bump high excl with
    | none => some .rangeError
    | some (b, len) =>
      if 0 < stride then
        walk elems stride (fun i => i < min (wrap (b + len)) n) (elems.length + 1) b []
      else if 0 < len then
        walk elems stride (fun i => b ≤ i) (elems.length + 1) (min (wrap (b + len - 1)) (n - 1)) []
      else some (.array [])

/-- The index that a word stands for, from the end if it is negative. -/
def resolve (n v : Int) : Int := if v < 0 then v + n else v

namespace ArithSeq

variable (seq : ArithSeq) (n : Int)

def first : Int :=
  match seq.begin with
  | some v => resolve n v
  | none => if 0 < seq.step then 0 else n - 1

def last : Int :=
  match seq.finish with
  | some v => resolve n v
  | none => if 0 < seq.step then n - 1 else 0

/-- How far an index has to stay from the end. -/
def margin : Int := if seq.excludeEnd ∧ seq.finish.isSome then 1 else 0

def nth (k : Nat) : Int := seq.first n + k * seq.step

/-- An index does not pass the end. -/
def Reaches (i : Int) : Prop :=
  if 0 < seq.step then i + seq.margin ≤ seq.last n else seq.last n + seq.margin ≤ i

/-- The step behind the last element that is taken leaves the words. -/
def Overflows : Prop :=
  2 ≤ seq.step ∧ 0 ≤ seq.first n ∧ seq.last n - seq.first n - seq.margin < n ∧
    ∃ k : Nat, seq.Reaches n (seq.nth n k) ∧ seq.nth n k < n ∧ 2 ^ 63 ≤ seq.nth n (k + 1)

/-- A descending sequence that starts in the array and excludes its last index by the word -1. -/
def Turned : Prop :=
  seq.step < 0 ∧ seq.excludeEnd = true ∧ seq.finish = some (-1) ∧
    0 ≤ seq.first n ∧ seq.first n < n

end ArithSeq

/-- The slice ends without an index outside the array, and where both ends lie in the array an
array that it answers has the elements of the sequence up to the end. -/
def Exact (elems : List α) (seq : ArithSeq) : Prop :=
  let n : Int := elems.length
  ∃ sliced, arithSeqSlice elems seq = some sliced ∧ sliced ≠ .panicked ∧
    ∀ out, sliced = .array out → 0 ≤ seq.first n ∧ seq.first n < n →
      0 ≤ seq.last n ∧ seq.last n < n →
      ∃ m, (∀ k : Nat, k < m ↔ seq.Reaches n (seq.nth n k)) ∧
        out.map some = (range m).map fun k => indexed elems (seq.nth n k)

theorem wrap_of_fits {x : Int} (low : -2 ^ 63 ≤ x) (high : x < 2 ^ 63) : wrap x = x := by
  unfold wrap
  omega

variable {elems : List α}

theorem exists_indexed {i : Int} (low : 0 ≤ i) (high : i < elems.length) :
    ∃ v, indexed elems i = some v := by
  rw [indexed, if_pos low]
  exact ⟨_, getElem?_eq_getElem (by omega)⟩

theorem add_succ_mul (i step : Int) (k : Nat) :
    i + (k + 1 : Nat) * step = i + k * step + step := by
  push_cast
  ring

section Walk

variable (elems : List α) {stride : Int} (more : Int → Bool) (i : Int)

/-- The first `m` rounds of a walk are in the array, and their sums in the words. -/
def Goes (stride : Int) (m : Nat) : Prop :=
  ∀ k : Nat, k < m → more (i + k * stride) = true ∧ 0 ≤ i + k * stride ∧
    i + k * stride < elems.length ∧ -2 ^ 63 ≤ i + (k + 1 : Nat) * stride ∧
    i + (k + 1 : Nat) * stride < 2 ^ 63

variable {elems more i} {m : Nat}

theorem walk_steps (m : Nat) (goes : Goes elems more i stride m) :
    ∃ vs, vs.map some = (range m).map (fun k : Nat => indexed elems (i + k * stride)) ∧
      ∀ fuel out, walk elems stride more (m + fuel) i out =
        walk elems stride more fuel (i + m * stride) (out ++ vs) := by
  induction m with
  | zero => exact ⟨[], rfl, fun fuel out => by simp⟩
  | succ m ih =>
    obtain ⟨vs, values, steps⟩ := ih fun k below => goes k (by omega)
    obtain ⟨more', low, high, fits⟩ := goes m (by omega)
    obtain ⟨v, here⟩ := exists_indexed low high
    refine ⟨vs ++ [v], ?_, fun fuel out => ?_⟩
    · rw [map_append, values, range_succ, map_append, map_singleton, map_singleton, here]
    · rw [Nat.add_assoc, steps, Nat.add_comm 1, walk, if_pos more', here]
      simp only [← add_succ_mul, wrap_of_fits fits.1 fits.2, append_assoc]

/-- A walk of `m` rounds in the array that then stops answers the elements it passed. -/
theorem walk_ends (goes : Goes elems more i stride m)
    (stops : more (i + m * stride) = false) (short : m ≤ elems.length) :
    ∃ vs, vs.map some = (range m).map (fun k : Nat => indexed elems (i + k * stride)) ∧
      walk elems stride more (elems.length + 1) i [] = some (.array vs) := by
  obtain ⟨vs, values, steps⟩ := walk_steps m goes
  refine ⟨vs, values, ?_⟩
  have rounds : elems.length + 1 = m + ((elems.length - m) + 1) := by omega
  rw [rounds, steps, walk, if_neg (by simp [stops]), nil_append]

end Walk

theorem le_mul_step (k : Nat) {step : Int} (positive : 0 < step) : (k : Int) ≤ k * step :=
  le_mul_of_one_le_right (Int.natCast_nonneg k) positive

/-- How many steps from `b` stay below a limit. -/
theorem exists_below {step : Int} (positive : 0 < step) (b limit : Int) :
    ∃ m : Nat, ∀ k : Nat, k < m ↔ b + k * step < limit := by
  refine ⟨(-((b - limit) / step)).toNat, fun k => ?_⟩
  rw [Int.lt_toNat]
  have := @Int.ediv_lt_iff_lt_mul (b - limit) (-k) step positive
  constructor
  · intro before
    have := this.mp (by omega)
    linarith
  · intro below
    have := this.mpr (by linarith)
    omega

/-- An ascending walk, which leaves the words behind its last element or does not. -/
theorem walk_up (short : elems.length < 2 ^ 60) {step limit b : Int}
    (positive : 0 < step) (word : step < 2 ^ 63) (inside : 0 ≤ b) (limited : limit ≤ elems.length)
    {m : Nat} (counts : ∀ k : Nat, k < m ↔ b + k * step < limit) :
    ((∀ k : Nat, k < m → b + (k + 1 : Nat) * step < 2 ^ 63) →
      ∃ vs, vs.map some = (range m).map (fun k : Nat => indexed elems (b + k * step)) ∧
        walk elems step (fun i => i < limit) (elems.length + 1) b [] = some (.array vs)) ∧
    ∀ k : Nat, k < m → 2 ^ 63 ≤ b + (k + 1 : Nat) * step →
      walk elems step (fun i => i < limit) (elems.length + 1) b [] = some .panicked := by
  have grows (k : Nat) := le_mul_step k positive
  have next := add_succ_mul b step
  refine ⟨fun fits => walk_ends (fun k early => ?_) ?_ ?_, fun k early leaves => ?_⟩
  · have here := (counts k).mp early
    have := grows k
    have := grows (k + 1)
    exact ⟨by simpa using here, by omega, by omega, by omega, fits k early⟩
  · simpa using (counts m).not.mp (lt_irrefl m)
  · cases m with
    | zero => omega
    | succ m =>
      have := (counts m).mp (by omega)
      have := grows m
      omega
  · have here := (counts k).mp early
    have goes : Goes elems (fun i => i < limit) b step k := by
      intro j before
      have := grows j
      have := grows (j + 1)
      have later : b + (j + 1 : Nat) * step ≤ b + k * step := by
        have := mul_le_mul_of_nonneg_right (Int.ofNat_le.mpr before) positive.le
        push_cast at this ⊢
        omega
      have := next j
      exact ⟨by simpa using (counts j).mp (by omega), by omega, by omega, by omega, by omega⟩
    obtain ⟨vs, _, steps⟩ := walk_steps k goes
    have := grows k
    have rounds : elems.length + 1 = k + ((elems.length - 1 - k) + 1 + 1) := by omega
    obtain ⟨v, found⟩ := exists_indexed (by omega : 0 ≤ b + k * step) (lt_of_lt_of_le here limited)
    have wrapped : wrap (b + k * step + step) < 0 := by
      have := next k
      unfold wrap
      omega
    rw [rounds, steps, walk, if_pos (by simpa using here), found]
    dsimp only
    rw [walk, if_pos (by simp; omega), indexed, if_neg (by omega)]

theorem walk_down (short : elems.length < 2 ^ 60) {step b i : Int}
    (negative : step < 0) (word : -2 ^ 63 ≤ step) (inside : 0 ≤ b) (start : i < elems.length) :
    ∃ (m : Nat) (vs : List α), (∀ k : Nat, k < m ↔ b ≤ i + k * step) ∧
      vs.map some = (range m).map (fun k : Nat => indexed elems (i + k * step)) ∧
      walk elems step (fun i => b ≤ i) (elems.length + 1) i [] = some (.array vs) := by
  obtain ⟨m, counts⟩ := exists_below (neg_pos.mpr negative) (-i) (1 - b)
  have falls (k : Nat) := le_mul_step k (neg_pos.mpr negative)
  simp only [mul_neg] at counts falls
  have next := add_succ_mul i step
  have goes : Goes elems (fun i => b ≤ i) i step m := by
    intro k early
    have := (counts k).mp early
    have := falls k
    have := next k
    exact ⟨by simp; omega, by omega, by omega, by omega, by omega⟩
  have stops := (counts m).not.mp (lt_irrefl m)
  have rounds : m ≤ elems.length := by
    cases m with
    | zero => omega
    | succ m =>
      have := (counts m).mp (by omega)
      have := falls m
      omega
  obtain ⟨vs, values, walked⟩ := walk_ends goes (by simp; omega) rounds
  exact ⟨m, vs, fun k => (counts k).trans (by omega), values, walked⟩

section Spans

variable {n : Int} (short : 0 ≤ n ∧ n < 2 ^ 60)
include short

theorem resolve_word {v : Int} (word : -2 ^ 63 ≤ v ∧ v < 2 ^ 63) :
    (if v < 0 then wrap (v + n) else v) = resolve n v := by
  unfold resolve
  split
  · exact wrap_of_fits (by omega) (by omega)
  · rfl

/-- The span is what the resolved ends say, or it is empty where a sum wrapped around. -/
theorem span_cases (low : Option Int) (bump : Int) {high : Option Int} (excl : Bool)
    (word : -2 ^ 63 ≤ high.getD (-1) ∧ high.getD (-1) < 2 ^ 63) :
    let b := resolve n (wrap (low.getD 0 + bump))
    let stop := resolve n (high.getD (-1)) + if excl && high.isSome then 0 else 1
    (span n low bump high excl = none ∧ ¬(0 ≤ b ∧ b ≤ n ∧ stop - b ≤ n)) ∨
      0 ≤ b ∧ b ≤ n ∧ ∃ len, span n low bump high excl = some (b, len) ∧
        (len ≤ n ∧ len = max (stop - b) 0 ∨ n < stop - b ∧ len = 0) := by
  have start : -2 ^ 63 ≤ wrap (low.getD 0 + bump) ∧ wrap (low.getD 0 + bump) < 2 ^ 63 := by
    unfold wrap
    omega
  have edge : resolve n (high.getD (-1)) < 2 ^ 63 ∧ n - 2 ^ 63 ≤ resolve n (high.getD (-1)) := by
    unfold resolve
    split <;> omega
  unfold span
  simp only [resolve_word short start, resolve_word short word]
  generalize resolve n (wrap (low.getD 0 + bump)) = b
  generalize resolve n (high.getD (-1)) = e at edge
  have bound : (if excl && high.isSome then e else wrap (e + 1)) =
      wrap (e + if excl && high.isSome then 0 else 1) := by
    cases excl && high.isSome with
    | false => rfl
    | true => exact (wrap_of_fits (by simp; omega) (by simp; omega)).symm.trans (by simp)
  have extra : (if excl && high.isSome then (0 : Int) else 1) = 0 ∨
      (if excl && high.isSome then (0 : Int) else 1) = 1 := by
    cases excl && high.isSome <;> simp
  simp only [bound]
  generalize (if excl && high.isSome then (0 : Int) else 1) = c at extra
  unfold wrap
  split_ifs with negative beyond
  · exact .inl ⟨rfl, by omega⟩
  · exact .inl ⟨rfl, by omega⟩
  · exact .inr ⟨by omega, by omega, _, rfl, by omega⟩

end Spans

section Directions

variable {elems : List α} (fits : elems.length < 2 ^ 60) (seq : ArithSeq)

theorem ArithSeq.word_step : -2 ^ 63 ≤ seq.step ∧ seq.step < 2 ^ 63 := seq.words _ mem_cons_self

theorem ArithSeq.word_end {d : Int} {end_ : Option Int} (small : d = 0 ∨ d = -1)
    (listed : end_ = seq.begin ∨ end_ = seq.finish) :
    -2 ^ 63 ≤ end_.getD d ∧ end_.getD d < 2 ^ 63 := by
  cases end_ with
  | none =>
    simp only [Option.getD_none]
    omega
  | some v => exact seq.words v (by rcases listed with same | same <;> simp [← same])

theorem ArithSeq.margin_cases : seq.margin = 0 ∨ seq.margin = 1 := by
  unfold margin
  split <;> simp

variable {seq}

theorem arithSeqSlice_up (stride : 2 ≤ seq.step) :
    arithSeqSlice elems seq =
      match span elems.length seq.begin 0 seq.finish seq.excludeEnd with
      | none => some .rangeError
      | some (b, len) => walk elems seq.step (fun i => i < min (wrap (b + len)) elems.length)
          (elems.length + 1) b [] := by
  unfold arithSeqSlice
  have up : ¬ seq.step < 0 := by omega
  dsimp only
  rw [if_neg (by omega), if_neg (by omega), if_neg up]
  simp only [up, false_and, if_false]
  split
  · rfl
  · rw [if_pos (by omega)]

include fits

theorem exact_up (stride : 2 ≤ seq.step) : Exact elems seq ↔ ¬ seq.Overflows elems.length := by
  have word := seq.word_step
  have positive : 0 < seq.step := by omega
  have low : resolve elems.length (wrap (seq.begin.getD 0 + 0)) = seq.first elems.length := by
    have word := seq.word_end (.inl rfl) (.inl rfl)
    rw [add_zero, wrap_of_fits word.1 word.2, ArithSeq.first]
    cases seq.begin with
    | none => rw [if_pos positive]; rfl
    | some v => rfl
  have high : resolve elems.length (seq.finish.getD (-1)) = seq.last elems.length := by
    rw [ArithSeq.last]
    cases seq.finish with
    | none => rw [if_pos positive, resolve]; simp; omega
    | some v => rfl
  have extra : (if seq.excludeEnd && seq.finish.isSome then (0 : Int) else 1) = 1 - seq.margin := by
    unfold ArithSeq.margin
    cases seq.excludeEnd <;> cases seq.finish <;> rfl
  have spans := span_cases (by omega : 0 ≤ (elems.length : Int) ∧ _) seq.begin 0 seq.excludeEnd
    (seq.word_end (.inr rfl) (.inr rfl))
  rw [low, high, extra] at spans
  have margins := seq.margin_cases
  have counted (k : Nat) := le_mul_step k positive
  unfold Exact ArithSeq.Overflows ArithSeq.nth ArithSeq.Reaches
  simp only [arithSeqSlice_up stride, if_pos positive]
  generalize seq.first elems.length = first at *
  generalize seq.last elems.length = last at *
  rcases spans with ⟨missed, outside⟩ | ⟨inside, atMost, len, found, spans⟩
  · rw [missed]
    refine iff_of_true ⟨.rangeError, rfl, nofun, nofun⟩ ?_
    rintro ⟨-, inside, short, k, -, before, -⟩
    have := counted k
    exact outside ⟨inside, by omega, by omega⟩
  · rw [found]
    obtain ⟨m, counts⟩ := exists_below positive first (min (wrap (first + len)) elems.length)
    obtain ⟨arrays, panics⟩ := walk_up fits positive word.2 inside (min_le_right _ _) counts
    rw [wrap_of_fits (by omega) (by omega)] at counts
    rcases spans with ⟨bounded, long⟩ | ⟨beyond, empty⟩
    · by_cases leaves : ∃ k < m, 2 ^ 63 ≤ first + (k + 1 : Nat) * seq.step
      · obtain ⟨k, early, far⟩ := leaves
        have := (counts k).mp early
        have := counted k
        refine iff_of_false ?_ (not_not.mpr ⟨stride, inside, by omega, k, by omega, by omega, far⟩)
        rintro ⟨sliced, walked, fine, -⟩
        exact fine (Option.some.inj (walked.symm.trans (panics k early far)))
      · push Not at leaves
        obtain ⟨vs, values, walked⟩ := arrays leaves
        refine iff_of_true ⟨.array vs, walked, nofun, fun out same _ _ => ?_⟩ ?_
        · cases same
          refine ⟨m, fun k => (counts k).trans ?_, values⟩
          have := counted k
          omega
        · rintro ⟨-, -, -, k, reached, before, far⟩
          have := counted k
          exact absurd far (not_le.mpr (leaves k ((counts k).mpr (by omega))))
    · -- the end wrapped around, and the span is empty
      have none : m = 0 := by
        by_contra some
        have := (counts 0).mp (by omega)
        omega
      obtain ⟨vs, -, walked⟩ := arrays fun k early => by omega
      refine iff_of_true ⟨.array vs, walked, nofun, fun out same _ _ => ?_⟩ ?_
      · omega
      · rintro ⟨-, -, short, -⟩
        omega

omit fits in
theorem arithSeqSlice_down (negative : seq.step < 0) :
    arithSeqSlice elems seq =
      match span elems.length seq.finish seq.margin seq.begin false with
      | none => some .rangeError
      | some (b, len) =>
        if 0 < len then
          walk elems seq.step (fun i => b ≤ i) (elems.length + 1)
            (min (wrap (b + len - 1)) (elems.length - 1)) []
        else some (.array []) := by
  unfold arithSeqSlice ArithSeq.margin
  dsimp only
  rw [if_neg (by omega), if_neg (by omega), if_pos negative]
  simp only [negative, true_and]
  split
  · rfl
  · rw [if_neg (by omega)]

/-- The lower end of a descending sequence, which the word -1 turns into the beginning. -/
theorem lower_end (negative : seq.step < 0) :
    let b := resolve elems.length (wrap (seq.finish.getD 0 + seq.margin))
    (seq.excludeEnd = true ∧ seq.finish = some (-1) →
        b = 0 ∧ seq.last elems.length = elems.length - 1 ∧ seq.margin = 1) ∧
      (¬(seq.excludeEnd = true ∧ seq.finish = some (-1)) → 0 ≤ seq.last elems.length →
        seq.last elems.length < elems.length → b = seq.last elems.length + seq.margin) := by
  have word := seq.word_end (.inl rfl : (0 : Int) = 0 ∨ _) (.inr rfl)
  unfold ArithSeq.last ArithSeq.margin resolve wrap
  cases present : seq.finish with
  | none => simp [not_lt.mpr negative.le]
  | some v =>
    simp only [present, Option.getD_some] at word
    simp only [Option.getD_some, Option.isSome_some, and_true, Option.some.injEq]
    cases seq.excludeEnd <;> simp <;> omega

theorem exact_down (negative : seq.step < 0) : Exact elems seq ↔ ¬ seq.Turned elems.length := by
  have word := seq.word_step
  have high : resolve elems.length (seq.begin.getD (-1)) = seq.first elems.length := by
    rw [ArithSeq.first]
    cases seq.begin with
    | none => rw [if_neg (by omega), resolve]; simp; omega
    | some v => rfl
  have low := lower_end fits negative
  have spans := span_cases (by omega : 0 ≤ (elems.length : Int) ∧ _) seq.finish seq.margin false
    (seq.word_end (.inr rfl) (.inl rfl))
  rw [high] at spans
  simp only [Bool.false_and, Bool.false_eq_true, if_false] at low spans
  have falls (k : Nat) := le_mul_step k (neg_pos.mpr negative)
  simp only [mul_neg] at falls
  have upward : ¬ 0 < seq.step := by omega
  have turned : seq.Turned elems.length ↔ (seq.excludeEnd = true ∧ seq.finish = some (-1)) ∧
      0 ≤ seq.first elems.length ∧ seq.first elems.length < elems.length := by
    unfold ArithSeq.Turned
    tauto
  rw [turned]
  unfold Exact ArithSeq.nth ArithSeq.Reaches
  simp only [arithSeqSlice_down negative, upward, if_false]
  generalize (seq.excludeEnd = true ∧ seq.finish = some (-1)) = minus at *
  generalize seq.first elems.length = first at *
  generalize seq.last elems.length = last at *
  generalize resolve _ (wrap _) = b at *
  rcases spans with ⟨missed, outside⟩ | ⟨inside, atMost, len, found, spans⟩
  · rw [missed]
    refine iff_of_true ⟨.rangeError, rfl, nofun, nofun⟩ ?_
    rintro ⟨minus, start⟩
    have := low.1 minus
    omega
  rw [found]
  dsimp only
  by_cases walks : 0 < len
  · obtain ⟨m, vs, counts, values, walked⟩ := walk_down fits negative word.1 inside
      (by omega : min (wrap (b + len - 1)) (elems.length - 1 : Int) < elems.length)
    rw [if_pos walks, walked]
    rw [wrap_of_fits (by omega) (by omega)] at counts values
    by_cases minus : minus
    · obtain ⟨rfl, rfl, excluded⟩ := low.1 minus
      refine iff_of_false ?_ (not_not.mpr ⟨minus, by omega⟩)
      rintro ⟨sliced, same, -, exact_⟩
      obtain ⟨m', counts', values'⟩ := exact_ vs (Option.some.inj same).symm (by omega) (by omega)
      have none : m' = 0 := by
        by_contra some
        have := (counts' 0).mp (by omega)
        omega
      have some := (counts 0).mpr (by omega)
      have lengths := congrArg length (values'.symm.trans values)
      simp only [length_map, length_range] at lengths
      omega
    · refine iff_of_true ⟨.array vs, rfl, nofun, fun out same start within => ?_⟩
        (fun both => minus both.1)
      cases same
      have lower := low.2 minus within.1 within.2
      have top : min (b + len - 1) (elems.length - 1 : Int) = first := by omega
      rw [top] at counts values
      exact ⟨m, fun k => by rw [counts k, lower], values⟩
  · rw [if_neg walks]
    have straight : 0 ≤ first ∧ first < elems.length → ¬ minus := by
      intro start minus
      have := low.1 minus
      omega
    refine iff_of_true ⟨.array [], rfl, nofun, fun out same start within => ?_⟩
      (fun both => straight both.2 both.1)
    cases same
    refine ⟨0, fun k => ?_, rfl⟩
    have := low.2 (straight start) within.1 within.2
    have := falls k
    omega

theorem exact_one (one : seq.step = 1) : Exact elems seq := by
  have short : 0 ≤ (elems.length : Int) ∧ (elems.length : Int) < 2 ^ 60 := by omega
  have computed : arithSeqSlice elems seq =
      some (rangeSlice elems seq.begin seq.finish seq.excludeEnd) := by
    unfold arithSeqSlice
    dsimp only
    rw [if_neg (by omega), if_pos one]
  refine ⟨_, computed, ?_, fun out same start within => ?_⟩
  · unfold rangeSlice
    dsimp only
    split_ifs <;> exact nofun
  · have low : (match seq.begin with
        | some v => if v < 0 then wrap (v + elems.length) else v
        | none => 0) = seq.first elems.length := by
      have word := seq.word_end (.inl rfl : (0 : Int) = 0 ∨ _) (.inl rfl)
      unfold ArithSeq.first
      cases present : seq.begin with
      | none => simp [one]
      | some v => exact resolve_word short (by simpa [present] using word)
    have high : (match seq.finish with
        | some v =>
          if seq.excludeEnd then wrap ((if v < 0 then wrap (v + elems.length) else v) - 1)
          else if v < 0 then wrap (v + elems.length) else v
        | none => (elems.length : Int) - 1) = seq.last elems.length - seq.margin := by
      have word := seq.word_end (.inl rfl : (0 : Int) = 0 ∨ _) (.inr rfl)
      clear same
      unfold ArithSeq.last at within ⊢
      unfold ArithSeq.margin
      cases finish : seq.finish with
      | none => simp [one]
      | some v =>
        simp only [finish, Option.getD_some] at within word
        simp only [resolve_word short word]
        cases seq.excludeEnd with
        | false => simp
        | true => exact wrap_of_fits (by omega) (by omega)
    have margins := seq.margin_cases
    unfold rangeSlice at same
    simp only [low, high] at same
    simp only [ArithSeq.nth, ArithSeq.Reaches, one, mul_one, zero_lt_one, if_true]
    generalize seq.first elems.length = first at *
    generalize seq.last elems.length = last at *
    rw [if_neg (by omega), min_eq_left (by omega)] at same
    refine ⟨(last - seq.margin - first + 1).toNat, fun k => by omega, ?_⟩
    split at same
    · cases same
      rw [Int.toNat_of_nonpos (by omega)]
      rfl
    · cases same
      refine ext_getElem (by simp; omega) fun k low high => ?_
      simp only [length_map, length_range] at high
      have place : (first + k).toNat = first.toNat + k := by omega
      simp [indexed, place, show 0 ≤ first + k by omega]

end Directions

theorem arithSeqSlice_exact_iff (a : RArray α) (seq : ArithSeq) :
    Exact a.elems seq ↔ ¬ seq.Overflows a.elems.length ∧ ¬ seq.Turned a.elems.length := by
  rcases lt_trichotomy seq.step 0 with negative | zero | positive
  · rw [exact_down a.fits negative]
    exact (and_iff_right fun up => by have := up.1; omega).symm
  · refine iff_of_true ⟨.argError, if_pos zero, nofun, nofun⟩ ⟨?_, ?_⟩
    · exact fun up => by have := up.1; omega
    · exact fun down => by have := down.1; omega
  · have ascending : ¬ seq.Turned a.elems.length := fun down => by have := down.1; omega
    by_cases one : seq.step = 1
    · exact iff_of_true (exact_one a.fits one) ⟨fun up => by have := up.1; omega, ascending⟩
    · rw [exact_up a.fits (by omega)]
      exact (and_iff_left ascending).symm

/-- A step behind the second element that wraps around, and the whole array instead of nothing. -/
theorem arithSeqSlice_strays :
    let far : ArithSeq := ⟨some 1, none, 2 ^ 63 - 1, false, by decide⟩
    let down : ArithSeq := ⟨some 2, some (-1), -1, true, by decide⟩
    arithSeqSlice [0, 1, 2] far = some .panicked ∧ ¬ Exact [0, 1, 2] far ∧
      arithSeqSlice [0, 1, 2] down = some (.array [2, 1, 0]) ∧ ¬ Exact [0, 1, 2] down := by
  refine ⟨by decide, ?_, by decide, ?_⟩
  · rw [exact_up (by decide) (by decide), not_not]
    refine ⟨by decide, by decide, by decide, 0, ?_, by decide, by decide⟩
    unfold ArithSeq.Reaches
    decide
  · rw [exact_down (by decide) (by decide), not_not]
    exact ⟨by decide, rfl, rfl, by decide, by decide⟩

end Zeo.Value.ArithSlice
