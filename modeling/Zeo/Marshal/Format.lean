import Zeo.Lib.Lockstep
import Zeo.Value.Basic
import Mathlib.Tactic.Linarith
import Mathlib.Tactic.Ring

/-!
# The pieces of a Marshal stream

A stream is made of single bytes (tags, an option byte), packed integers and runs of raw bytes.
The packed integer takes one byte near zero and a signed byte count with little-endian bytes
elsewhere. The writer counts up to eight bytes, but the reader takes a count above five for a
small integer, so the two agree on integers of at most five bytes only.
-/

namespace Zeo.Marshal

open List

/-- `x as u8`. -/
def byteOf (x : Int) : UInt8 := UInt8.ofNat (x % 256).toNat

/-- `b as i8`. -/
def signed (b : UInt8) : Int := if b.toNat < 128 then b.toNat else (b.toNat : Int) - 256

/-- The loop of `marshal_long_into`: the low bytes of `x` until only its sign is left, and that
sign. -/
def longBytes : Nat → Int → Option (List UInt8 × Bool)
  | 0, _ => none
  | rounds + 1, x =>
    let high := x / 256
    if high = 0 then some ([byteOf x], false)
    else if high = -1 then some ([byteOf x], true)
    else (longBytes rounds high).map fun (bytes, negative) => (byteOf x :: bytes, negative)

/-- `marshal_long_into`. The buffer is one zero byte when eight rounds are not enough, which no
`i64` needs. -/
def marshalLong (x : Int) : List UInt8 :=
  if x = 0 then [0]
  else if 1 ≤ x ∧ x < 123 then [byteOf (x + 5)]
  else if -123 ≤ x ∧ x < 0 then [byteOf (x - 5)]
  else
    match longBytes 8 x with
    | none => [0]
    | some (bytes, false) => byteOf bytes.length :: bytes
    | some (bytes, true) => byteOf (-bytes.length) :: bytes

/-- The byte loops of `read_long`: the `i`-th byte goes to the bits `8 * i` and up, which held
`fill` before, zeros or ones. -/
def gather (fill : Int) : Nat → Nat → Int → List UInt8 → Option (Int × List UInt8)
  | 0, _, x, input => some (x, input)
  | _ + 1, _, _, [] => none
  | count + 1, i, x, b :: input =>
    gather fill count (i + 1) (x + (b.toNat - fill) * 256 ^ i) input

/-- `read_long`; nothing when the input ends. -/
def readLong : List UInt8 → Option (Int × List UInt8)
  | [] => none
  | b :: input =>
    let c := signed b
    if c = 0 then some (0, input)
    else if 0 < c then
      if 6 ≤ c then some (c - 5, input) else gather 0 c.toNat 0 0 input
    else if c ≤ -6 then some (c + 5, input)
    else gather 255 (-c).toNat 0 (-1) input

/-- The integers the reader takes back as they were written. -/
def LongFits (x : Int) : Prop := -2 ^ 40 ≤ x ∧ x < 2 ^ 40

/-- What little-endian bytes add up to, over bits that held `fill`. -/
def digits (fill : Int) : List UInt8 → Int
  | [] => 0
  | b :: bytes => (b.toNat - fill) + 256 * digits fill bytes

theorem byteOf_toNat (x : Int) : ((byteOf x).toNat : Int) = x % 256 := by
  have small : (x % 256).toNat < 2 ^ 8 := by omega
  rw [byteOf, UInt8.toNat_ofNat_of_lt' small]
  omega

/-- A byte made of a small integer reads back as that integer. -/
theorem signed_byteOf (x : Int) (low : -128 ≤ x) (high : x < 128) : signed (byteOf x) = x := by
  have held := byteOf_toNat x
  unfold signed
  split <;> omega

theorem gather_eq (fill : Int) (bytes rest : List UInt8) (i : Nat) (x : Int) :
    gather fill bytes.length i x (bytes ++ rest) = some (x + 256 ^ i * digits fill bytes, rest) := by
  induction bytes generalizing i x with
  | nil => simp [gather, digits]
  | cons b bytes ih =>
    have step := ih (i + 1) (x + (b.toNat - fill) * 256 ^ i)
    rw [length_cons, cons_append, gather, step, digits]
    congr 2
    ring

/-- The writer's bytes add up to the integer, over zeros or over ones. -/
theorem longBytes_digits (rounds : Nat) (x : Int) (bytes : List UInt8) (negative : Bool)
    (made : longBytes rounds x = some (bytes, negative)) :
    0 < bytes.length ∧
      digits (if negative then 255 else 0) bytes = x + (if negative then 1 else 0) := by
  induction rounds generalizing x bytes with
  | zero => cases made
  | succ rounds ih =>
    have held := byteOf_toNat x
    rw [longBytes] at made
    by_cases zero : x / 256 = 0
    · rw [if_pos zero] at made
      obtain ⟨rfl, rfl⟩ := made
      simp only [digits, length_singleton]
      exact ⟨by decide, by simp; omega⟩
    · rw [if_neg zero] at made
      by_cases ones : x / 256 = -1
      · rw [if_pos ones] at made
        obtain ⟨rfl, rfl⟩ := made
        simp only [digits, length_singleton]
        exact ⟨by decide, by simp; omega⟩
      · rw [if_neg ones, Option.map_eq_some_iff] at made
        obtain ⟨⟨later, sign⟩, made, same⟩ := made
        cases same
        have tail := (ih (x / 256) later made).2
        refine ⟨by simp, ?_⟩
        rw [digits, tail]
        cases negative <;> simp <;> omega

theorem longBytes_length (count rounds : Nat) (enough : count ≤ rounds) (some_ : 0 < count)
    (x : Int)
    (low : -256 ^ count ≤ x) (high : x < 256 ^ count) :
    ∃ bytes negative, longBytes rounds x = some (bytes, negative) ∧ bytes.length ≤ count := by
  induction count generalizing rounds x with
  | zero => exact absurd some_ (by decide)
  | succ count ih =>
    obtain ⟨rounds, rfl⟩ : ∃ r, rounds = r + 1 := ⟨rounds - 1, by omega⟩
    rw [longBytes]
    by_cases zero : x / 256 = 0
    · exact ⟨[byteOf x], false, by rw [if_pos zero], by simp⟩
    · by_cases ones : x / 256 = -1
      · exact ⟨[byteOf x], true, by rw [if_neg zero, if_pos ones], by simp⟩
      · rw [if_neg zero, if_neg ones]
        have above : x / 256 < 256 ^ count := by omega
        have below : -256 ^ count ≤ x / 256 := by omega
        have left : 0 < count := by
          rcases Nat.eq_zero_or_pos count with none | left
          · subst none
            omega
          · exact left
        obtain ⟨bytes, negative, made, short⟩ :=
          ih rounds (by omega) left (x / 256) below above
        exact ⟨byteOf x :: bytes, negative, by rw [made]; rfl, by simpa using short⟩

theorem readLong_marshalLong (x : Int) (fits : LongFits x) (rest : List UInt8) :
    readLong (marshalLong x ++ rest) = some (x, rest) := by
  unfold marshalLong
  by_cases zero : x = 0
  · subst zero
    rfl
  rw [if_neg zero]
  by_cases small : 1 ≤ x ∧ x < 123
  · have byte := signed_byteOf (x + 5) (by omega) (by omega)
    rw [if_pos small]
    simp only [cons_append, nil_append, readLong, byte]
    rw [if_neg (by omega), if_pos (by omega), if_pos (by omega), Int.add_sub_cancel]
  rw [if_neg small]
  by_cases negative : -123 ≤ x ∧ x < 0
  · have byte := signed_byteOf (x - 5) (by omega) (by omega)
    rw [if_pos negative]
    simp only [cons_append, nil_append, readLong, byte]
    rw [if_neg (by omega), if_neg (by omega), if_pos (by omega), Int.sub_add_cancel]
  rw [if_neg negative]
  obtain ⟨low, high⟩ := fits
  obtain ⟨bytes, sign, made, short⟩ :=
    longBytes_length 5 8 (by decide) (by decide) x (by omega) (by omega)
  obtain ⟨some_, value⟩ := longBytes_digits 8 x bytes sign made
  rw [made]
  cases sign with
  | false =>
    have byte := signed_byteOf bytes.length (by omega) (by omega)
    simp only [cons_append, readLong, byte]
    rw [if_neg (by omega), if_pos (by omega), if_neg (by omega), Int.toNat_natCast, gather_eq]
    simp only [Bool.false_eq_true, if_false] at value
    simp [value]
  | true =>
    have byte := signed_byteOf (-bytes.length : Int) (by omega) (by omega)
    simp only [cons_append, readLong, byte]
    rw [if_neg (by omega), if_neg (by omega), if_neg (by omega), Int.neg_neg,
      Int.toNat_natCast, gather_eq]
    simp only [if_true] at value
    simp [value]

-- A count of six is taken for one: the reader leaves the six bytes behind.
example : readLong (marshalLong (2 ^ 40)) = some (1, [0, 0, 0, 0, 0, 1]) := by decide

/-- `str::as_bytes`. -/
def asBytes (text : String) : List UInt8 := text.toUTF8.data.toList

/-- `String::from_utf8_lossy`, where `lossy` reads the bytes that are not text. -/
def fromUtf8Lossy (lossy : List UInt8 → String) (bytes : List UInt8) : String :=
  (String.fromUTF8? ⟨bytes.toArray⟩).getD (lossy bytes)

theorem fromUtf8Lossy_asBytes (lossy : List UInt8 → String) (text : String) :
    fromUtf8Lossy lossy (asBytes text) = text := by
  have valid : (⟨(asBytes text).toArray⟩ : ByteArray).IsValidUTF8 := by
    exact text.isValidUTF8
  unfold fromUtf8Lossy String.fromUTF8?
  rw [dif_pos valid]
  cases text with
  | ofByteArray bytes valid =>
    simp [String.fromUTF8, asBytes]

/-- A piece of a stream. `start` takes no bytes: it records, where a value begins, the position
at which the value of each table entry so far begins, and the symbols so far. -/
inductive Token where
  | byte (b : UInt8)
  | long (x : Int)
  | raw (bytes : List UInt8)
  | start (born : List Nat) (symbols : List String)
deriving DecidableEq

def Token.letters : Token → List UInt8
  | .byte b => [b]
  | .long x => marshalLong x
  | .raw bytes => bytes
  | .start _ _ => []

def Token.Fits : Token → Prop
  | .long x => LongFits x
  | _ => True

instance : DecidablePred Token.Fits
  | .long x => inferInstanceAs (Decidable (-2 ^ 40 ≤ x ∧ x < 2 ^ 40))
  | .byte _ => isTrue trivial
  | .raw _ => isTrue trivial
  | .start _ _ => isTrue trivial

end Zeo.Marshal
