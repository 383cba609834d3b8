import Zeo.Enc.StrBuf

/-!
# Slices of strings

`String#[]` with a range turns its two ends into a start and a length and hands them to
`char_substr`. An end that counts from the end of the string is resolved before that, and again by
`char_substr` if it is still negative; the length is computed in machine words.
-/

namespace Zeo.Enc

open Zeo.Lib Zeo.Lib.Scan List

/-- The arguments of `String#[]`, as machine words. -/
inductive SliceArg where
  | span (start len : Index)
  | range (first last : Option Index) (exclusive : Bool)

/-- The start that the Range arm computes for a string of `n` characters. -/
def startWord (n : Nat) (first : Option Index) : Index :=
  match first with
  | some v => fromEnd v n
  | none => 0

/-- The last position that the Range arm computes. -/
def endWord (n : Nat) (last : Option Index) (exclusive : Bool) : Index :=
  match last with
  | some v => if exclusive then fromEnd v n - 1 else fromEnd v n
  | none => BitVec.ofNat 64 n - 1

/-- The length from one position to another, both included. -/
def spanWord (start stop : Index) : Index :=
  if (stop - start + 1).toInt < 0 then 0 else stop - start + 1

/-- `String#[]`. -/
def StrBuf.index (s : StrBuf) : SliceArg → Option StrBuf
  | .span start len => s.charSubstr start len
  | .range first last exclusive =>
    let start := startWord s.charLen first
    s.charSubstr start (spanWord start (endWord s.charLen last exclusive))

def startOf (n : Nat) (first : Option Index) : Int :=
  match first with
  | some a => if a.toInt < 0 then a.toInt + n else a.toInt
  | none => 0

/-- The position that a range stops before. -/
def stopOf (n : Nat) (last : Option Index) (exclusive : Bool) : Int :=
  match last with
  | some b => (if b.toInt < 0 then b.toInt + n else b.toInt) + if exclusive then 0 else 1
  | none => n

def sliced (ranges : List (Nat × Nat)) : SliceArg → Option (List (Nat × Nat))
  | .span start len => chosen ranges start.toInt len.toInt
  | .range first last exclusive =>
    let start := startOf ranges.length first
    let stop := stopOf ranges.length last exclusive
    if start < 0 ∨ ranges.length < start then none
    else some ((ranges.drop start.toNat).take (stop - start).toNat)

/-- A range that starts at most a length ahead of the string, or one that goes from its first
character to the largest word, that word included. -/
def Misread (n : Nat) : SliceArg → Prop
  | .span _ _ => False
  | .range first last exclusive => (startOf n first < 0 ∧ -n ≤ startOf n first) ∨
    (0 < n ∧ startOf n first = 0 ∧ last = some (BitVec.intMax 64) ∧ exclusive = false)

theorem toInt_startWord {n : Nat} (fits : n < 2 ^ 63) (first : Option Index) :
    (startWord n first).toInt = startOf n first := by
  cases first with
  | some a => exact toInt_fromEnd a fits
  | none => rfl

theorem spanWord_nonneg (start stop : Index) : 0 ≤ (spanWord start stop).toInt := by
  unfold spanWord
  split
  · exact Int.le_refl 0
  · omega

theorem toInt_spanWord {n : Nat} (fits : n < 2 ^ 63) (first last : Option Index)
    (exclusive : Bool) (inside : 0 ≤ startOf n first ∧ startOf n first ≤ n) :
    (spanWord (startWord n first) (endWord n last exclusive)).toInt =
      if startOf n first = 0 ∧ last = some (BitVec.intMax 64) ∧ exclusive = false then 0
      else max 0 (stopOf n last exclusive - startOf n first) := by
  have start := toInt_startWord fits first
  have word : (endWord n last exclusive - startWord n first + 1).toInt =
      (stopOf n last exclusive - startOf n first).bmod (2 ^ 64) := by
    have past : ∀ a b : Index, (a - b + 1).toInt = (a.toInt - b.toInt + 1).bmod (2 ^ 64) := by
      intro a b
      rw [BitVec.toInt_add, BitVec.toInt_sub, Int.bmod_add_bmod]
      rfl
    have back : ∀ a b : Index, a - 1 - b + 1 = a - b := by
      intro a b
      rw [sub_right_comm, sub_add_cancel]
    unfold endWord stopOf
    cases last with
    | none => rw [back, BitVec.toInt_sub, toInt_ofLength fits, start]
    | some b =>
      cases exclusive with
      | true =>
        simp only [if_true, add_zero]
        rw [back, BitVec.toInt_sub, toInt_fromEnd b fits, start]
      | false =>
        simp only [Bool.false_eq_true, if_false]
        rw [past, toInt_fromEnd b fits, start, sub_add_eq_add_sub]
  have bounds : (stopOf n last exclusive - startOf n first = 2 ^ 63 ↔
      startOf n first = 0 ∧ last = some (BitVec.intMax 64) ∧ exclusive = false) ∧
      -2 ^ 63 ≤ stopOf n last exclusive - startOf n first ∧
      stopOf n last exclusive - startOf n first ≤ 2 ^ 63 := by
    cases last with
    | none =>
      simp only [stopOf, reduceCtorEq, false_and, and_false, iff_false]
      omega
    | some b =>
      have low := b.le_toInt
      have high := b.toInt_lt
      have most : b = BitVec.intMax 64 ↔ b.toInt = 2 ^ 63 - 1 :=
        ⟨fun same => by rw [same]; decide, fun same => BitVec.eq_of_toInt_eq (by rw [same]; decide)⟩
      simp only [stopOf, Option.some.injEq, most]
      cases exclusive with
      | true | false =>
        simp only [if_true, if_false, reduceCtorEq, and_false, and_true, iff_false]
        split <;> omega
  obtain ⟨large, least, greatest⟩ := bounds
  unfold spanWord
  by_cases most : stopOf n last exclusive - startOf n first = 2 ^ 63
  · rw [if_pos (large.mp most), word, most]
    rfl
  · rw [Int.bmod_eq_of_le (by omega) (by omega)] at word
    rw [if_neg (most ∘ large.mpr)]
    split
    · change 0 = _
      omega
    · omega

/-- A slice is the list slice unless its range is misread. -/
theorem StrBuf.index_eq_sliced_iff (s : StrBuf) (arg : SliceArg) :
    (s.index arg).map (fun t => (t.bytes, t.enc)) =
      (sliced s.charRanges arg).map (fun rs => (rs.flatMap (slice s.bytes), s.enc)) ↔
    ¬ Misread s.charRanges.length arg := by
  cases arg with
  | span start len => exact iff_of_true (s.charSubstr_eq start len) id
  | range first last exclusive =>
    have fits := s.length_charRanges_lt
    unfold StrBuf.index sliced Misread
    dsimp only
    rw [s.charSubstr_eq, s.charLen_eq, chosen, toInt_startWord fits]
    have long := spanWord_nonneg (startWord s.charRanges.length first)
      (endWord s.charRanges.length last exclusive)
    have span := toInt_spanWord fits first last exclusive
    generalize startOf s.charRanges.length first = start at span ⊢
    by_cases negative : start < 0
    · -- What is negative still is resolved once more.
      rw [if_pos (.inl negative), place, if_pos negative]
      split
      · simp only [Option.bind_none, true_iff]
        omega
      · rw [Option.bind_some, if_neg (by omega)]
        simp only [Option.map_some, Option.map_none, reduceCtorEq, false_iff]
        omega
    · rw [place, if_neg negative, if_neg negative, Option.bind_some]
      by_cases beyond : s.charRanges.length < start
      · rw [if_pos (.inl (by omega)), if_pos (.inr beyond)]
        simp only [true_iff]
        omega
      · rw [if_neg (by omega), if_neg (by omega), span (by omega)]
        simp only [Option.map_some]
        by_cases worst : start = 0 ∧ last = some (BitVec.intMax 64) ∧ exclusive = false
        · obtain ⟨rfl, rfl, rfl⟩ := worst
          have stop : stopOf s.charRanges.length (some (BitVec.intMax 64)) false = 2 ^ 63 := rfl
          obtain ⟨us, walks⟩ := s.exists_characters
          have pieces : s.charRanges.map (slice s.bytes) = us := walks.slices
          rw [if_pos ⟨rfl, rfl, rfl⟩, Int.toNat_zero, drop_zero, take_zero, flatMap_nil,
            take_of_length_le (by omega), flatMap_def, ← length_map (slice s.bytes), pieces]
          cases us with
          | nil => simp
          | cons u rest => simp [walks.nonempty u mem_cons_self]
        · rw [if_neg worst, show ∀ x : Int, (max 0 x).toNat = x.toNat by omega]
          refine iff_of_true rfl ?_
          rintro (⟨below, -⟩ | ⟨-, all⟩)
          · exact negative below
          · exact worst all

/-- `"abc"[-5..1]` is `"bc"` and not nil, and `"abc"[0..9223372036854775807]` is empty. -/
theorem StrBuf.index_misread :
    let s := fromBytes [0x61, 0x62, 0x63] ⟨.utf8, true, fun _ => rfl⟩ (by decide)
    (s.index (.range (some (-5)) (some 1) false)).map (·.bytes) = some [0x62, 0x63] ∧
      sliced s.charRanges (.range (some (-5)) (some 1) false) = none ∧
      (s.index (.range (some 0) (some (BitVec.intMax 64)) false)).map (·.bytes) = some [] ∧
      sliced s.charRanges (.range (some 0) (some (BitVec.intMax 64)) false) =
        some [(0, 1), (1, 2), (2, 3)] := by
  decide

end Zeo.Enc
