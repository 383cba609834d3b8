import Zeo.Enc.Transcode

/-!
# Concatenation

`push_buf` appends the bytes of one string to another and chooses the encoding of the result: an
empty side yields to the other, and so does a side that is ASCII where both encodings are
ASCII-compatible. The side that is read in another encoding than its own falls there into the same
characters, and no character forms across the seam.
-/

namespace Zeo.Enc

open Zeo.Lib Zeo.Lib.Scan List EncodingId StrBuf

/-- A `StrBuf` with the row of the table that its encoding is. -/
structure TableBuf where
  id : EncodingId
  buf : StrBuf
  row : buf.enc = encoding id

inductive PushError where
  | incompatibleEncodings
  /-- A vector does not grow past the largest positive machine word. -/
  | capacityOverflow

namespace TableBuf

/-- `ascii_compatible` of the encoding. -/
def asciiCompatible (s : TableBuf) : Bool := EncodingId.asciiCompatible s.id

def compatConcatEnc (left right : TableBuf) : Option EncodingId :=
  if left.id = right.id then some left.id
  else if right.buf.bytes.isEmpty then some left.id
  else if left.buf.bytes.isEmpty then
    if left.asciiCompatible && right.asciiCompatible && right.buf.asciiOnly then some left.id
    else some right.id
  else if !left.asciiCompatible || !right.asciiCompatible then none
  else if right.buf.asciiOnly then some left.id
  else if left.buf.asciiOnly then some right.id
  else none

/-- `push_buf`: its answer, and the receiver after it. Where two ASCII-compatible encodings are
refused, the receiver was asked for its classification. -/
def pushBuf (s other : TableBuf) : Except PushError Unit × TableBuf :=
  match compatConcatEnc s other with
  | none =>
    (.error .incompatibleEncodings,
      if s.asciiCompatible && other.asciiCompatible then
        ⟨s.id, s.buf.classified, s.buf.classified_eq.2.trans s.row⟩
      else s)
  | some enc =>
    if fits : (s.buf.bytes ++ other.buf.bytes).length < 2 ^ 63 then
      (.ok (), ⟨enc, .fromBytes (s.buf.bytes ++ other.buf.bytes) (encoding enc) fits,
        rfl⟩)
    else (.error .capacityOverflow, s)

/-- The string falls into its own characters when it is read in this encoding. -/
def ReadsAs (s : TableBuf) (id : EncodingId) : Prop :=
  ∃ us, us.flatten = s.buf.bytes ∧ s.buf.charRanges = boundsOf 0 us ∧
    ∀ u ∈ us, IsCharacter (kind id) u

variable {s other : TableBuf} {id : EncodingId}

theorem readsAs_own (isValid : s.buf.validEncoding = true) : s.ReadsAs s.id := by
  have notBroken := of_decide_eq_true isValid
  rw [coderange_eq, s.row] at notBroken
  obtain ⟨us, whole, chars⟩ := characters_of_valid notBroken
  refine ⟨us, whole, ?_, chars⟩
  have walks := walks_of_characters chars
  rw [whole] at walks
  change charRanges s.buf.enc.kind s.buf.bytes = _
  rw [s.row]
  exact walks.ranges

theorem readsAs_empty (empty : s.buf.bytes.isEmpty = true) : s.ReadsAs id := by
  obtain ⟨us, walks⟩ := s.buf.exists_characters
  have bytes : s.buf.bytes = [] := isEmpty_iff.mp empty
  obtain rfl : us = [] := by
    refine eq_nil_iff_forall_not_mem.mpr fun u mem => walks.nonempty u mem ?_
    exact flatten_eq_nil_iff.mp (walks.whole.trans bytes) u mem
  exact ⟨[], bytes.symm, walks.ranges, fun _ none => absurd none not_mem_nil⟩

theorem readsAs_ascii (ascii : s.buf.asciiOnly = true)
    (compatible : EncodingId.asciiCompatible id = true) : s.ReadsAs id := by
  have walks := walks_of_characters (asciiOnly_characters ascii)
  rw [flatten_singles] at walks
  refine ⟨_, flatten_singles s.buf.bytes, walks.ranges, fun u mem => ?_⟩
  obtain ⟨b, listed, rfl⟩ := mem_map.mp mem
  exact isCharacter_low (kind_wide compatible) ((asciiOnly_iff.mp ascii).2 b listed)

theorem readsAs_compatConcatEnc (isValid : s.buf.validEncoding = true)
    (otherValid : other.buf.validEncoding = true) (chosen : compatConcatEnc s other = some id) :
    s.ReadsAs id ∧ other.ReadsAs id := by
  unfold compatConcatEnc at chosen
  split_ifs at chosen with same rightEmpty leftEmpty yields differ rightAscii leftAscii <;>
    cases chosen
  · exact ⟨readsAs_own isValid, same ▸ readsAs_own otherValid⟩
  · exact ⟨readsAs_own isValid, readsAs_empty rightEmpty⟩
  · simp only [Bool.and_eq_true] at yields
    exact ⟨readsAs_own isValid, readsAs_ascii yields.2 yields.1.1⟩
  · exact ⟨readsAs_empty leftEmpty, readsAs_own otherValid⟩
  · have both : s.asciiCompatible = true ∧ other.asciiCompatible = true := by simpa using differ
    exact ⟨readsAs_own isValid, readsAs_ascii rightAscii both.1⟩
  · have both : s.asciiCompatible = true ∧ other.asciiCompatible = true := by simpa using differ
    exact ⟨readsAs_ascii leftAscii both.2, readsAs_own otherValid⟩

theorem kind_ascii : EncodingId.kind id = .ascii → EncodingId.asciiCompatible id = true := by
  revert id
  decide

theorem pushBuf_cases (s other : TableBuf) :
    (∃ id fits, compatConcatEnc s other = some id ∧ s.pushBuf other = (.ok (),
      ⟨id, .fromBytes (s.buf.bytes ++ other.buf.bytes) (encoding id) fits, rfl⟩)) ∨
    ∃ e, (s.pushBuf other).1 = .error e ∧ (s.pushBuf other).2.id = s.id ∧
      (s.pushBuf other).2.buf.bytes = s.buf.bytes ∧
      (s.pushBuf other).2.buf.coderange = s.buf.coderange := by
  unfold pushBuf
  split
  · refine .inr ⟨_, rfl, ?_⟩
    obtain ⟨bytes, enc⟩ := s.buf.classified_eq
    split
    · exact ⟨rfl, bytes, by rw [coderange_eq, coderange_eq, bytes, enc]⟩
    · exact ⟨rfl, rfl, rfl⟩
  · rename_i id chosen
    split
    · exact .inl ⟨id, ‹_›, chosen, rfl⟩
    · exact .inr ⟨_, rfl, rfl, rfl, rfl⟩

/-- An append of valid strings makes a valid string of the bytes of both, whose characters are
those of both at their places; one that fails leaves the receiver. -/
theorem pushBuf_keeps_characters (s other : TableBuf) (isValid : s.buf.validEncoding = true)
    (otherValid : other.buf.validEncoding = true) :
    ((s.pushBuf other).1 = .ok () →
      (s.pushBuf other).2.buf.bytes = s.buf.bytes ++ other.buf.bytes ∧
      (s.pushBuf other).2.buf.validEncoding = true ∧
      (s.pushBuf other).2.buf.charLen = s.buf.charLen + other.buf.charLen ∧
      (s.pushBuf other).2.buf.charRanges = s.buf.charRanges ++ other.buf.charRanges.map fun r =>
        (s.buf.bytes.length + r.1, s.buf.bytes.length + r.2)) ∧
    ∀ e, (s.pushBuf other).1 = .error e →
      (s.pushBuf other).2.id = s.id ∧ (s.pushBuf other).2.buf.bytes = s.buf.bytes ∧
      (s.pushBuf other).2.buf.coderange = s.buf.coderange := by
  rcases pushBuf_cases s other with ⟨id, fits, chosen, after⟩ | ⟨e, failed, left⟩
  · rw [after]
    refine ⟨fun _ => ?_, nofun⟩
    obtain ⟨⟨us, whole, ranges, chars⟩, vs, otherWhole, otherRanges, otherChars⟩ :=
      readsAs_compatConcatEnc isValid otherValid chosen
    have all : ∀ u ∈ us ++ vs, IsCharacter (kind id) u :=
      forall_mem_append.mpr ⟨chars, otherChars⟩
    have joined : (us ++ vs).flatten = s.buf.bytes ++ other.buf.bytes := by
      rw [flatten_append, whole, otherWhole]
    have valid : computeCoderange (us ++ vs).flatten (encoding id) ≠ .broken :=
      valid_of_characters kind_ascii all
    have parts : charRanges (kind id) (s.buf.bytes ++ other.buf.bytes) =
        s.buf.charRanges ++ other.buf.charRanges.map fun r =>
          (s.buf.bytes.length + r.1, s.buf.bytes.length + r.2) := by
      rw [← joined, (walks_of_characters all).ranges, boundsOf_append, whole, ranges, otherRanges,
        ← boundsOf_shift, Nat.add_comm]
    rw [joined] at valid
    refine ⟨rfl, decide_eq_true ?_, ?_, parts⟩
    · exact valid
    · rw [charLen_eq, charLen_eq, charLen_eq]
      exact (congrArg length parts).trans (by rw [length_append, length_map])
  · refine ⟨fun done => ?_, fun _ _ => left⟩
    rw [failed] at done
    cases done

def ofBytes (bytes : List UInt8) (id : EncodingId) (fits : bytes.length < 2 ^ 63) : TableBuf :=
  ⟨id, .fromBytes bytes (encoding id) fits, rfl⟩

/-- `"a"` in US-ASCII and `"é"` in UTF-8 make a valid string of two characters. -/
theorem pushBuf_keeps_characters_accent :
    let s := ofBytes [0x61] usAscii (by decide)
    let other := ofBytes [0xC3, 0xA9] utf8 (by decide)
    s.buf.validEncoding = true ∧ other.buf.validEncoding = true ∧
      (s.pushBuf other).2.id = utf8 ∧ (s.pushBuf other).2.buf.validEncoding = true ∧
      (s.pushBuf other).2.buf.charRanges = [(0, 1), (1, 3)] := by
  intro s other
  have isValid : s.buf.validEncoding = true := by decide
  have otherValid : other.buf.validEncoding = true := by decide
  obtain ⟨-, valid, -, ranges⟩ :=
    (pushBuf_keeps_characters s other isValid otherValid).1 rfl
  exact ⟨isValid, otherValid, rfl, valid, ranges.trans (by decide)⟩

end TableBuf

end Zeo.Enc
