import Mathlib.Data.List.Lex
import Mathlib.Data.Prod.Lex
import Mathlib.Order.Monotone.Basic

/-!
# The successor of a string

`String#succ` increments the rightmost letter or digit and carries to the left, past what is neither
letter nor digit. On letters and digits alone it counts: every position keeps its kind, and a carry
out of the first one puts a new position in front. A character stands for its code point here, and
a byte for its number.
-/

namespace Zeo.Value

open List

inductive Kind where
  | lower
  | upper
  | digit
deriving DecidableEq

namespace Kind

def first : Kind → Nat
  | lower => 0x61
  | upper => 0x41
  | digit => 0x30

def radix : Kind → Nat
  | lower | upper => 26
  | digit => 10

def carry : Kind → Nat
  | lower => 0x61
  | upper => 0x41
  | digit => 0x31

/-- `is_ascii_alphabetic`, of a kind. -/
def alphabetic : Kind → Bool
  | lower | upper => true
  | digit => false

end Kind

/-- The kind of a character, if `is_ascii_alphanumeric`. -/
def kindOf (c : Nat) : Option Kind :=
  if 0x61 ≤ c ∧ c ≤ 0x7A then some .lower
  else if 0x41 ≤ c ∧ c ≤ 0x5A then some .upper
  else if 0x30 ≤ c ∧ c ≤ 0x39 then some .digit
  else none

/-- The variables of the loop of `succ_str`. -/
structure Carry where
  foundAlnum : Bool
  prevWasNonchar : Bool
  /-- The kind of `last_wrapped`. -/
  lastWrapped : Option Kind
  carryPos : Nat
  /-- The kind that `carry_char` is of. -/
  carryKind : Kind

/-- Whether the carry goes from a letter to a digit or back. -/
def Carry.flip (st : Carry) (c : Nat) : Bool :=
  match st.lastWrapped, kindOf c with
  | some w, some k => w.alphabetic != k.alphabetic
  | _, _ => false

/-- The loop over the characters from the right. Those to the left are in reverse order; the answer
is the variables, `done` and the characters. -/
def succLoop (st : Carry) : List Nat → List Nat → Carry × Bool × List Nat
  | [], right => (st, false, right)
  | c :: left, right =>
    if st.prevWasNonchar && st.flip c then (st, false, left.reverse ++ c :: right)
    else
      match kindOf c with
      | none => succLoop { st with prevWasNonchar := true } left (c :: right)
      | some k =>
        let st := { st with
          foundAlnum := true, prevWasNonchar := false, carryPos := left.length, carryKind := k }
        if c + 1 = k.first + k.radix then
          succLoop { st with lastWrapped := some k } left (k.first :: right)
        else (st, true, left.reverse ++ (c + 1) :: right)

/-- What the loop leaves, with a leftover carry inserted. -/
def succInsert (out : Carry × Bool × List Nat) : List Nat :=
  if out.2.1 then out.2.2 else out.2.2.insertIdx out.1.carryPos out.1.carryKind.carry

/-- The part that `succ_str` and `succ_bytes` share. Without a letter or digit there is no answer. -/
def succAlnum (s : List Nat) : Option (List Nat) :=
  let out := succLoop ⟨false, false, none, 0, .digit⟩ s.reverse []
  if out.1.foundAlnum then some (succInsert out) else none

def succStr (s : List Nat) : List Nat :=
  if s = [] then []
  else
    match succAlnum s with
    | some next => next
    | none => s.modify (s.length - 1) fun c => if (c + 1).isValidChar then c + 1 else c

/-- The increment of bytes without a letter or digit, from the right. -/
def carryBytes : List Nat → List Nat
  | [] => [1]
  | b :: left => if b = 0xFF then 0 :: carryBytes left else (b + 1) :: left

def succBytes (s : List Nat) : List Nat :=
  if s = [] then []
  else
    match succAlnum s with
    | some next => next
    | none => (carryBytes s.reverse).reverse

/-- A string of letters and digits. -/
def Alnum (s : List Nat) : Prop := ∀ c ∈ s, (kindOf c).isSome = true

/-- The increment of letters and digits, the rightmost one first, where `k` is the kind to the right
of them. -/
def increment (k : Kind) : List Nat → List Nat
  | [] => [k.carry]
  | c :: left =>
    match kindOf c with
    | none => c :: left
    | some k => if c + 1 = k.first + k.radix then k.first :: increment k left else (c + 1) :: left

/-- The number that letters and digits denote, the rightmost one first. -/
def numeral : List Nat → Nat
  | [] => 0
  | c :: left =>
    match kindOf c with
    | none => 0
    | some k => (c - k.first) + k.radix * numeral left

/-- The last character of its kind. -/
def wraps (c : Nat) : Prop := c = 0x7A ∨ c = 0x5A ∨ c = 0x39

def wrapped (c : Nat) : Nat := (kindOf c).elim c Kind.first

theorem kindOf_eq_some {c : Nat} {k : Kind} :
    kindOf c = some k ↔ k.first ≤ c ∧ c < k.first + k.radix := by
  unfold kindOf
  cases k <;> simp only [Kind.first, Kind.radix] <;> split_ifs <;> simp <;> omega

theorem wraps_iff {c : Nat} {k : Kind} (kind : kindOf c = some k) :
    wraps c ↔ c + 1 = k.first + k.radix := by
  obtain ⟨low, high⟩ := kindOf_eq_some.mp kind
  unfold wraps
  cases k <;> simp only [Kind.first, Kind.radix] at low high ⊢ <;> omega

/-- The loop increments what is to the left, or inserts the carry where nothing is. -/
theorem succInsert_succLoop {left : List Nat} (alnum : Alnum left) (right : List Nat) (st : Carry)
    (next : st.prevWasNonchar = false)
    (start : left = [] → st.foundAlnum = true ∧ st.carryPos = 0) :
    (succLoop st left right).1.foundAlnum = true ∧
      succInsert (succLoop st left right) = (increment st.carryKind left).reverse ++ right := by
  induction left generalizing right st with
  | nil =>
    obtain ⟨found, pos⟩ := start rfl
    exact ⟨found, by simp [succInsert, succLoop, pos, increment]⟩
  | cons c left ih =>
    obtain ⟨kind, alnum⟩ := forall_mem_cons.mp alnum
    obtain ⟨k, kind⟩ := Option.isSome_iff_exists.mp kind
    unfold succLoop increment
    simp only [next, kind, Bool.false_and, Bool.false_eq_true, if_false]
    split
    · obtain ⟨found, inserted⟩ := ih alnum (k.first :: right) ⟨true, false, some k, left.length, k⟩
        rfl fun empty => ⟨rfl, by rw [empty]; rfl⟩
      exact ⟨found, by rw [inserted, reverse_cons, append_assoc]; rfl⟩
    · exact ⟨rfl, by simp [succInsert]⟩

theorem forall_mem_reverse {P : Nat → Prop} {s : List Nat} (all : ∀ c ∈ s, P c) :
    ∀ c ∈ s.reverse, P c :=
  fun c mem => all c (mem_reverse.mp mem)

theorem succStr_eq {s : List Nat} (some_ : s ≠ []) (alnum : Alnum s) :
    succStr s = (increment .digit s.reverse).reverse := by
  obtain ⟨found, inserted⟩ := succInsert_succLoop (forall_mem_reverse alnum) []
    ⟨false, false, none, 0, .digit⟩ rfl fun empty => absurd (reverse_eq_nil_iff.mp empty) some_
  unfold succStr succAlnum
  rw [if_neg some_]
  simp only [found, if_true]
  rw [inserted, append_nil]

variable {k : Kind} {s : List Nat}

/-- An increment that does not carry all the way counts one up and keeps the kinds. -/
theorem increment_counts (alnum : Alnum s) (short : ∃ c ∈ s, ¬ wraps c) :
    (increment k s).map kindOf = s.map kindOf ∧ numeral (increment k s) = numeral s + 1 := by
  induction s generalizing k with
  | nil => simp at short
  | cons c left ih =>
    obtain ⟨kind, alnum⟩ := forall_mem_cons.mp alnum
    obtain ⟨k, kind⟩ := Option.isSome_iff_exists.mp kind
    have bounds := kindOf_eq_some.mp kind
    unfold increment
    simp only [kind]
    split
    · rename_i last
      obtain ⟨d, mem, low⟩ := short
      have further : ∃ c ∈ left, ¬ wraps c := by
        rcases mem_cons.mp mem with rfl | mem
        · exact absurd ((wraps_iff kind).mpr last) low
        · exact ⟨d, mem, low⟩
      have wrapped : kindOf k.first = some k := kindOf_eq_some.mpr (by omega)
      obtain ⟨kinds, counted⟩ := ih alnum further
      refine ⟨by rw [map_cons, map_cons, kinds, wrapped, kind], ?_⟩
      simp only [numeral, wrapped, kind, counted, Nat.mul_add]
      omega
    · have next : kindOf (c + 1) = some k := kindOf_eq_some.mpr (by omega)
      refine ⟨by rw [map_cons, map_cons, next, kind], ?_⟩
      simp only [numeral, next, kind]
      omega

theorem increment_wraps (all : ∀ c ∈ s, wraps c) :
    ∃ left, (s.map kindOf).getLastD (some k) = some left ∧
      increment k s = s.map wrapped ++ [left.carry] := by
  induction s generalizing k with
  | nil => exact ⟨k, rfl, rfl⟩
  | cons c rest ih =>
    obtain ⟨last, all⟩ := forall_mem_cons.mp all
    obtain ⟨own, kind⟩ : ∃ own, kindOf c = some own := by
      rcases last with rfl | rfl | rfl <;> exact ⟨_, rfl⟩
    obtain ⟨left, isLeft, added⟩ := ih all
    refine ⟨left, by rw [map_cons, getLastD_cons, kind, isLeft], ?_⟩
    unfold increment
    simp only [kind]
    rw [if_pos ((wraps_iff kind).mp last), added, map_cons, wrapped, kind]
    rfl

def Lower (s : List Nat) : Prop := ∀ c ∈ s, kindOf c = some .lower

/-- The place of lowercase letters, the rightmost one first, among all strings of them. -/
def rank : List Nat → Nat
  | [] => 0
  | c :: left => (c - 0x60) + 26 * rank left

theorem lower_iff {c : Nat} : kindOf c = some .lower ↔ 0x61 ≤ c ∧ c < 0x7B := kindOf_eq_some

/-- An increment goes on to the next place, and to a longer or to a later string. -/
theorem increment_lower (lower : Lower s) :
    Lower (increment .lower s) ∧ rank (increment .lower s) = rank s + 1 ∧
      (s.length < (increment .lower s).length ∨ ∃ ws vs c left, ws.length = vs.length ∧
        s = ws ++ c :: left ∧ increment .lower s = vs ++ (c + 1) :: left) := by
  induction s with
  | nil => exact ⟨by simp [Lower, increment, lower_iff, Kind.carry], rfl, .inl (by decide)⟩
  | cons c left ih =>
    obtain ⟨kind, lower⟩ := forall_mem_cons.mp lower
    have bounds := lower_iff.mp kind
    have step : increment .lower (c :: left) =
        if c + 1 = 0x7B then 0x61 :: increment .lower left else (c + 1) :: left := by
      rw [increment, kind]
      rfl
    by_cases last : c + 1 = 0x7B
    · obtain ⟨still, next, later⟩ := ih lower
      rw [step, if_pos last]
      refine ⟨forall_mem_cons.mpr ⟨rfl, still⟩, by rw [rank, rank, next]; omega, ?_⟩
      rcases later with longer | ⟨ws, vs, d, more, same, old, new⟩
      · exact .inl (Nat.succ_lt_succ longer)
      · refine .inr ⟨c :: ws, 0x61 :: vs, d, more, congrArg (· + 1) same, ?_, ?_⟩
        · rw [old]
          rfl
        · rw [new]
          rfl
    · rw [step, if_neg last]
      refine ⟨forall_mem_cons.mpr ⟨lower_iff.mpr (by omega), lower⟩, by rw [rank, rank]; omega,
        .inr ⟨[], [], c, left, rfl, rfl, rfl⟩⟩

theorem rank_injective {s t : List Nat} (lower : Lower s) (other : Lower t)
    (same : rank s = rank t) : s = t := by
  induction s generalizing t with
  | nil =>
    cases t with
    | nil => rfl
    | cons d t =>
      have bounds := lower_iff.mp (other d mem_cons_self)
      rw [rank, rank] at same
      omega
  | cons c s ih =>
    have first := lower_iff.mp (lower c mem_cons_self)
    cases t with
    | nil =>
      rw [rank, rank] at same
      omega
    | cons d t =>
      have second := lower_iff.mp (other d mem_cons_self)
      rw [rank, rank] at same
      have equal : c = d := by omega
      rw [equal, ih (forall_mem_cons.mp lower).2 (forall_mem_cons.mp other).2 (by omega)]

def lengthThenText (s : List Nat) : Nat ×ₗ List Nat := toLex (s.length, s)

theorem succStr_lower (some_ : s ≠ []) (lower : Lower s) :
    Lower (succStr s) ∧ rank (succStr s).reverse = rank s.reverse + 1 ∧
      lengthThenText s < lengthThenText (succStr s) := by
  have alnum : Alnum s := fun c mem => by rw [lower c mem]; rfl
  have kind : increment .digit s.reverse = increment .lower s.reverse := by
    cases back : s.reverse with
    | nil => exact absurd (reverse_eq_nil_iff.mp back) some_
    | cons c left => rfl
  obtain ⟨still, next, later⟩ := increment_lower (forall_mem_reverse lower)
  rw [succStr_eq some_ alnum, kind, reverse_reverse]
  refine ⟨forall_mem_reverse still, next, ?_⟩
  rw [lengthThenText, lengthThenText, Prod.Lex.toLex_lt_toLex, length_reverse]
  rw [length_reverse] at later
  rcases later with longer | ⟨ws, vs, c, left, same, old, new⟩
  · exact .inl longer
  · have text := congrArg reverse old
    rw [reverse_reverse] at text
    rw [new, text]
    simp only [reverse_append, reverse_cons, append_assoc, length_append, length_reverse,
      singleton_append, length_cons, same]
    exact .inr ⟨by omega, append_left_lt (cons_lt_cons_iff.mpr (.inl (Nat.lt_succ_self c)))⟩

theorem iterate_lower (i : Nat) : succStr^[i] [0x61] ≠ [] ∧ Lower (succStr^[i] [0x61]) ∧
    rank (succStr^[i] [0x61]).reverse = i + 1 := by
  induction i with
  | zero => exact ⟨by simp, by simp [Lower, lower_iff], rfl⟩
  | succ i ih =>
    obtain ⟨some_, lower, place⟩ := ih
    obtain ⟨still, next, -⟩ := succStr_lower some_ lower
    rw [Function.iterate_succ_apply']
    rw [place] at next
    refine ⟨fun none => ?_, still, next⟩
    rw [none] at next
    exact nomatch next

theorem succLoop_found {left : List Nat} (st : Carry) (right : List Nat)
    (start : st.foundAlnum = true ∨ st.lastWrapped = none ∧ ∃ c ∈ left, (kindOf c).isSome = true) :
    (succLoop st left right).1.foundAlnum = true := by
  induction left generalizing st right with
  | nil => simpa [succLoop] using start
  | cons c left ih =>
    unfold succLoop
    split
    · rename_i stop
      rcases start with found | ⟨fresh, -⟩
      · exact found
      · simp [Carry.flip, fresh] at stop
    · cases kind : kindOf c with
      | none =>
        refine ih _ _ (start.imp_right fun ⟨fresh, d, mem, alnum⟩ => ⟨fresh, d, ?_, alnum⟩)
        rcases mem_cons.mp mem with rfl | mem
        · rw [kind] at alnum
          exact nomatch alnum
        · exact mem
      | some k =>
        dsimp only
        split
        · exact ih _ _ (.inl rfl)
        · rfl

/-- The successor of letters and digits counts: a carry within the string keeps the kind of every
position and adds one to the number that they denote, and a carry out of it puts a character of the
first one's kind in front. From `a` on it goes through the strings of lowercase letters once each,
by length and then by alphabet. On ASCII with a letter or digit the two routines agree. -/
theorem succStr_counts :
    (∀ s, s ≠ [] → Alnum s → (∃ c ∈ s, ¬ wraps c) →
      (succStr s).map kindOf = s.map kindOf ∧
        numeral (succStr s).reverse = numeral s.reverse + 1) ∧
    (∀ c s, (∀ d ∈ c :: s, wraps d) → ∃ k, kindOf c = some k ∧
      succStr (c :: s) = k.carry :: (c :: s).map wrapped) ∧
    (StrictMono (fun i => lengthThenText (succStr^[i] [0x61])) ∧
      ∀ s, (∃ i, succStr^[i] [0x61] = s) ↔ s ≠ [] ∧ Lower s) ∧
    ∀ s, (∀ c ∈ s, c < 0x80) → (∃ c ∈ s, (kindOf c).isSome = true) → succBytes s = succStr s := by
  refine ⟨fun s some_ alnum short => ?_, fun c s all => ?_, ⟨?_, fun s => ?_⟩, fun s _ found => ?_⟩
  · have counts := increment_counts (k := .digit) (forall_mem_reverse alnum)
      (by simpa using short)
    rw [succStr_eq some_ alnum, map_reverse, counts.1, reverse_reverse]
    exact ⟨by rw [map_reverse, reverse_reverse], counts.2⟩
  · obtain ⟨left, isLeft, added⟩ := increment_wraps (k := .digit) (forall_mem_reverse all)
    have alnum : Alnum (c :: s) := fun d member => by
      rcases all d member with rfl | rfl | rfl <;> rfl
    refine ⟨left, by simpa using isLeft, ?_⟩
    rw [succStr_eq (cons_ne_nil c s) alnum, added, reverse_append, ← map_reverse, reverse_reverse]
    rfl
  · refine strictMono_nat_of_lt_succ fun i => ?_
    rw [Function.iterate_succ_apply']
    obtain ⟨some_, lower, -⟩ := iterate_lower i
    exact (succStr_lower some_ lower).2.2
  · constructor
    · rintro ⟨i, rfl⟩
      exact ⟨(iterate_lower i).1, (iterate_lower i).2.1⟩
    · rintro ⟨some_, lower⟩
      have place : rank s.reverse ≠ 0 := by
        intro zero
        have none := rank_injective (forall_mem_reverse lower) (forall_mem_nil _) zero
        exact some_ (reverse_eq_nil_iff.mp none)
      obtain ⟨-, still, found⟩ := iterate_lower (rank s.reverse - 1)
      exact ⟨rank s.reverse - 1, reverse_injective (rank_injective (forall_mem_reverse still)
        (forall_mem_reverse lower) (by omega))⟩
  · have some_ : s ≠ [] := by
      rintro rfl
      simp at found
    have seen : (succLoop ⟨false, false, none, 0, .digit⟩ s.reverse []).1.foundAlnum = true :=
      succLoop_found _ _ (.inr ⟨rfl, by simpa using found⟩)
    unfold succBytes succStr succAlnum
    simp only [if_neg some_, seen, if_true]

/-- `"az"` goes on to `"ba"`, and `"Zz"` to `"AAa"`. -/
theorem succStr_counts_az :
    (∃ c ∈ [0x61, 0x7A], ¬ wraps c) ∧ succStr [0x61, 0x7A] = [0x62, 0x61] ∧
      numeral (succStr [0x61, 0x7A]).reverse = 25 + 1 ∧
      succStr [0x5A, 0x7A] = [0x41, 0x41, 0x61] := by
  have short : ∃ c ∈ [0x61, 0x7A], ¬ wraps c := ⟨0x61, by simp, by simp [wraps]⟩
  obtain ⟨counts, carries, -⟩ := succStr_counts
  obtain ⟨k, kind, carried⟩ := carries 0x5A [0x7A] (by simp [wraps])
  refine ⟨short, by decide, (counts [0x61, 0x7A] (by simp) (by simp [Alnum]; decide) short).2, ?_⟩
  rw [carried, ← Option.some.inj kind]
  rfl

end Zeo.Value
