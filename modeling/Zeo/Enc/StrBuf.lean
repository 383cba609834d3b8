import Mathlib
import Zeo.Enc.Units

/-!
# Strings and their characters

`strbuf.rs` keeps a string as bytes with an encoding. The characters are the stretches of
`char_ranges`; indexing, substrings and reversal go through them unless every character is a byte.
The characters of a valid string can be put together anew, in any order and with repetitions: the
result is valid, and falls into the same characters.
-/

namespace Zeo.Enc

open Zeo.Lib Zeo.Lib.Scan List

/-- `CodeRange`: how the bytes sit relative to their encoding. -/
inductive CodeRange where
  | unknown
  | sevenBit
  /-- Valid, with a high byte or in a wide encoding. -/
  | valid
  | broken
deriving DecidableEq

/-- What of an encoding's row its strings depend on. -/
structure Encoding where
  kind : EncKind
  /-- Whether the first 128 codepoints coincide with ASCII. -/
  asciiCompatible : Bool
  /-- No row of a wide family says so. -/
  wide : asciiCompatible = true → wideOf kind = none

def computeCoderange (bytes : List UInt8) (enc : Encoding) : CodeRange :=
  if enc.asciiCompatible && bytes.all fun b => b.toNat < 0x80 then .sevenBit
  else
    match enc.kind with
    | .utf8 => if Utf8.valid bytes then .valid else .broken
    | .ascii => .broken
    | .latin1 | .binary | .registered | .singleByte => .valid
    | .multiByte family => if (mbRanges family bytes).all fun s => s.info then .valid else .broken
    | .utf16 be =>
      if (wideRanges ⟨2, be⟩ bytes).all fun s => s.info.1.isSome then .valid else .broken
    | .utf32 be =>
      if (wideRanges ⟨4, be⟩ bytes).all fun s => s.info.1.isSome then .valid else .broken

/-- `char_ranges`: the byte range of each character. -/
def charRanges (kind : EncKind) (bytes : List UInt8) : List (Nat × Nat) :=
  match kind with
  | .utf8 => (scan utf8CharScan bytes).map Span.bounds
  | .ascii | .latin1 | .binary | .registered | .singleByte =>
    (List.range bytes.length).map fun i => (i, i + 1)
  | .multiByte family => (mbRanges family bytes).map Span.bounds
  | .utf16 be => (wideRanges ⟨2, be⟩ bytes).map Span.bounds
  | .utf32 be => (wideRanges ⟨4, be⟩ bytes).map Span.bounds

structure Walks (kind : EncKind) (bytes : List UInt8) (us : List (List UInt8)) : Prop where
  whole : us.flatten = bytes
  nonempty : ∀ u ∈ us, u ≠ []
  ranges : charRanges kind bytes = boundsOf 0 us

variable {bytes : List UInt8} {A : Type} {kind : EncKind}

theorem walks_of_cuts {unit : List UInt8 → Nat × A}
    {ps : List (List UInt8 × A)} (cuts : Cuts unit bytes ps)
    (walk : charRanges kind bytes = (scan unit bytes).map Span.bounds) :
    Walks kind bytes (ps.map Prod.fst) where
  whole := cuts.flatten
  nonempty u mem := by
    obtain ⟨p, listed, rfl⟩ := mem_map.mp mem
    exact cuts.nonempty p listed
  ranges := by rw [walk, cuts.map_bounds]

theorem bytewise_ranges (bytes : List UInt8) :
    ((List.range bytes.length).map fun i => (i, i + 1)) = (scan byteScan bytes).map Span.bounds := by
  have each : ∀ pos, ((List.range bytes.length).map fun i => (pos + i, pos + i + 1)) =
      (scanFrom byteScan pos 0 bytes).map Span.bounds := by
    induction bytes with
    | nil => exact fun _ => rfl
    | cons b bytes ih =>
      intro pos
      have later : (scanFrom byteScan pos 0 (b :: bytes)).map Span.bounds =
          (pos, pos + 1) :: (scanFrom byteScan (pos + 1) 0 bytes).map Span.bounds := rfl
      rw [later, ← ih, length_cons, range_succ_eq_map, map_cons, map_map]
      refine congrArg₂ List.cons rfl (map_congr_left fun i _ => ?_)
      change (pos + (i + 1), pos + (i + 1) + 1) = (pos + 1 + i, pos + 1 + i + 1)
      rw [show pos + (i + 1) = pos + 1 + i by omega]
  have fromStart := each 0
  simp only [Nat.zero_add] at fromStart
  exact fromStart

theorem exists_walks (kind : EncKind) (bytes : List UInt8) : ∃ us, Walks kind bytes us := by
  cases kind with
  | utf8 =>
    obtain ⟨ps, cuts⟩ := exists_cuts utf8CharScan_proper bytes
    exact ⟨_, walks_of_cuts cuts rfl⟩
  | multiByte family =>
    obtain ⟨ps, cuts⟩ := exists_cuts (mbScan_proper family) bytes
    exact ⟨_, walks_of_cuts cuts rfl⟩
  | utf16 be =>
    obtain ⟨ps, cuts⟩ := exists_cuts (wideScan_proper ⟨2, be⟩) bytes
    exact ⟨_, walks_of_cuts cuts rfl⟩
  | utf32 be =>
    obtain ⟨ps, cuts⟩ := exists_cuts (wideScan_proper ⟨4, be⟩) bytes
    exact ⟨_, walks_of_cuts cuts rfl⟩
  | _ =>
    exact ⟨_, walks_of_cuts (cuts_singles fun _ _ _ => rfl) (bytewise_ranges bytes)⟩

theorem flatten_singles (bytes : List UInt8) : (bytes.map fun b => [b]).flatten = bytes := by
  exact flatMap_singleton' bytes

/-- The string falls into characters that any string can be put together from: it falls into them,
and is valid. -/
def Recombines (enc : Encoding) (bytes : List UInt8) : Prop :=
  ∃ us, Walks enc.kind bytes us ∧ ∀ vs, (∀ v ∈ vs, v ∈ us) →
    Walks enc.kind vs.flatten vs ∧ computeCoderange vs.flatten enc ≠ .broken

def IsCharacter (kind : EncKind) (u : List UInt8) : Prop :=
  match kind with
  | .utf8 => ∃ c, Utf8.Spells u c
  | .multiByte family => ∃ info, Stands (mbScan family) (u, info) ∧ info = true
  | .utf16 be => ∃ info, Stands (wideScan ⟨2, be⟩) (u, info) ∧ info.1.isSome = true
  | .utf32 be => ∃ info, Stands (wideScan ⟨4, be⟩) (u, info) ∧ info.1.isSome = true
  | .ascii => ∃ b : UInt8, b.toNat < 0x80 ∧ u = [b]
  | .latin1 | .binary | .registered | .singleByte => ∃ b, u = [b]

/-- What the family asks of a string that is not ASCII. -/
def passes (kind : EncKind) (bytes : List UInt8) : Bool :=
  match kind with
  | .utf8 => Utf8.valid bytes
  | .ascii => false
  | .latin1 | .binary | .registered | .singleByte => true
  | .multiByte family => (mbRanges family bytes).all fun s => s.info
  | .utf16 be => (wideRanges ⟨2, be⟩ bytes).all fun s => s.info.1.isSome
  | .utf32 be => (wideRanges ⟨4, be⟩ bytes).all fun s => s.info.1.isSome

variable {enc : Encoding} {kind : EncKind} {bytes : List UInt8} {us : List (List UInt8)}

theorem not_broken_iff : computeCoderange bytes enc ≠ .broken ↔
    (enc.asciiCompatible = true ∧ ∀ b ∈ bytes, b.toNat < 0x80) ∨ passes enc.kind bytes = true := by
  have low : (enc.asciiCompatible && bytes.all fun b => b.toNat < 0x80) = true ↔
      enc.asciiCompatible = true ∧ ∀ b ∈ bytes, b.toNat < 0x80 := by simp
  rw [← low]
  unfold computeCoderange passes
  split
  · rename_i seven
    exact ⟨fun _ => .inl seven, fun _ => nofun⟩
  · rename_i high
    rw [or_iff_right high]
    cases enc.kind <;> simp [Option.isSome_iff_ne_none]

/-- An ASCII byte is a character of every family but the wide ones. -/
theorem isCharacter_low (narrow : wideOf kind = none) {b : UInt8} (low : b.toNat < 0x80) :
    IsCharacter kind [b] := by
  cases kind with
  | utf8 => exact ⟨Char.ofNat b.toNat, if_pos low, rfl⟩
  | multiByte family => exact ⟨true, ⟨cons_ne_nil b [], mbScan_low low⟩, rfl⟩
  | utf16 be | utf32 be => exact absurd narrow (Option.some_ne_none _)
  | ascii => exact ⟨b, low, rfl⟩
  | _ => exact ⟨b, rfl⟩

theorem walks_of_stands {unit : List UInt8 → Nat × A}
    (stand : ∀ u ∈ us, ∃ info, Stands unit (u, info))
    (walk : ∀ bs, charRanges kind bs = (scan unit bs).map Span.bounds) :
    Walks kind us.flatten us := by
  obtain ⟨ps, cuts, listed, -⟩ := exists_cuts_of_stands fun u mem =>
    (stand u mem).imp fun _ stands => ⟨stands, trivial⟩
  have walks := walks_of_cuts cuts (walk us.flatten)
  rwa [listed] at walks

theorem walks_singles (each : ∀ u ∈ us, ∃ b, u = [b])
    (walk : ∀ bs, charRanges kind bs = (List.range bs.length).map fun i => (i, i + 1)) :
    Walks kind us.flatten us := by
  refine walks_of_stands (fun u mem => ?_) fun bs => (walk bs).trans (bytewise_ranges bs)
  obtain ⟨b, rfl⟩ := each u mem
  exact ⟨(), cons_ne_nil b [], fun _ => rfl⟩

/-- Characters put together fall into them again. -/
theorem walks_of_characters (chars : ∀ u ∈ us, IsCharacter kind u) :
    Walks kind us.flatten us := by
  cases kind with
  | utf8 =>
    have stand : ∀ u ∈ us, ∃ info, Stands utf8CharScan (u, info) := fun u mem =>
      (chars u mem).elim fun _ spells => ⟨(), utf8CharScan_stands spells⟩
    exact walks_of_stands stand fun _ => rfl
  | multiByte family | utf16 be | utf32 be =>
    exact walks_of_stands (fun u mem => (chars u mem).imp fun _ => And.left) fun _ => rfl
  | ascii =>
    exact walks_singles (fun u mem => (chars u mem).imp fun _ => And.right) fun _ => rfl
  | _ => exact walks_singles chars fun _ => rfl

theorem valid_of_characters (named : enc.kind = .ascii → enc.asciiCompatible = true)
    (chars : ∀ u ∈ us, IsCharacter enc.kind u) : computeCoderange us.flatten enc ≠ .broken := by
  refine not_broken_iff.mpr ?_
  cases isKind : enc.kind with
  | utf8 =>
    rw [isKind] at chars
    exact .inr (Utf8.valid_of_spells chars)
  | ascii =>
    rw [isKind] at chars
    refine .inl ⟨named isKind, fun b mem => ?_⟩
    obtain ⟨u, listed, inside⟩ := mem_flatten.mp mem
    obtain ⟨c, low, rfl⟩ := chars u listed
    exact mem_singleton.mp inside ▸ low
  | multiByte family =>
    rw [isKind] at chars
    obtain ⟨ps, cuts, -, meets⟩ := exists_cuts_of_stands chars
    exact .inr ((cuts.all_info fun info => info).mpr meets)
  | utf16 be | utf32 be =>
    rw [isKind] at chars
    obtain ⟨ps, cuts, -, meets⟩ := exists_cuts_of_stands chars
    exact .inr ((cuts.all_info fun info => info.1.isSome).mpr meets)
  | _ => exact .inr rfl

/-- Where units that meet a test stand, a string whose units all meet it falls into such. -/
theorem exists_stands {unit : List UInt8 → Nat × A} {test : A → Bool}
    (proper : Proper unit) (passed : ((scan unit bytes).all fun s => test s.info) = true)
    (stands : ∀ u rest info, u ≠ [] → unit (u ++ rest) = (u.length, info) → test info = true →
      Stands unit (u, info)) :
    ∃ us : List (List UInt8), us.flatten = bytes ∧
      ∀ u ∈ us, ∃ info, Stands unit (u, info) ∧ test info = true := by
  obtain ⟨ps, cuts⟩ := exists_cuts proper bytes
  refine ⟨ps.map Prod.fst, cuts.flatten, fun u mem => ?_⟩
  obtain ⟨p, listed, rfl⟩ := mem_map.mp mem
  obtain ⟨rest, classified⟩ := cuts.classified p listed
  have met := (cuts.all_info test).mp passed p listed
  exact ⟨p.2, stands p.1 rest p.2 (cuts.nonempty p listed) classified met, met⟩

theorem characters_of_passes (passed : passes kind bytes = true) :
    ∃ us : List (List UInt8), us.flatten = bytes ∧ ∀ u ∈ us, IsCharacter kind u := by
  cases kind with
  | utf8 =>
    obtain ⟨ps, cuts, chars⟩ := Utf8.cuts_of_valid passed
    refine ⟨ps.map Prod.fst, cuts.flatten, fun u mem => ?_⟩
    obtain ⟨p, listed, rfl⟩ := mem_map.mp mem
    obtain ⟨c, -, spells⟩ := chars p listed
    exact ⟨c, spells⟩
  | ascii => cases passed
  | multiByte family =>
    refine exists_stands (mbScan_proper family) passed fun u rest info some_ classified met => ?_
    obtain rfl : info = true := met
    exact mbScan_stands some_ classified
  | utf16 be | utf32 be =>
    exact exists_stands (wideScan_proper _) passed wideScan_stands
  | _ =>
    refine ⟨bytes.map fun b => [b], flatten_singles bytes, fun u mem => ?_⟩
    obtain ⟨b, -, rfl⟩ := mem_map.mp mem
    exact ⟨b, rfl⟩

theorem characters_of_valid (isValid : computeCoderange bytes enc ≠ .broken) :
    ∃ us : List (List UInt8), us.flatten = bytes ∧ ∀ u ∈ us, IsCharacter enc.kind u := by
  rcases not_broken_iff.mp isValid with ⟨compatible, low⟩ | passed
  · refine ⟨bytes.map fun b => [b], flatten_singles bytes, fun u mem => ?_⟩
    obtain ⟨b, listed, rfl⟩ := mem_map.mp mem
    exact isCharacter_low (enc.wide compatible) (low b listed)
  · exact characters_of_passes passed

theorem recombines (isValid : computeCoderange bytes enc ≠ .broken) : Recombines enc bytes := by
  have named : enc.kind = .ascii → enc.asciiCompatible = true := fun isAscii =>
    ((not_broken_iff.mp isValid).resolve_right (by simp [isAscii, passes])).1
  obtain ⟨us, rfl, chars⟩ := characters_of_valid isValid
  refine ⟨us, walks_of_characters chars, fun vs among => ?_⟩
  have fromUs : ∀ v ∈ vs, IsCharacter enc.kind v := fun v mem => chars v (among v mem)
  exact ⟨walks_of_characters fromUs, valid_of_characters named fromUs⟩

/-- `StrBuf`: bytes in an encoding, with the classification computed last. -/
structure StrBuf where
  bytes : List UInt8
  enc : Encoding
  cache : CodeRange
  /-- What stands in the cell was computed for these bytes. -/
  computed : cache ≠ .unknown → cache = computeCoderange bytes enc
  /-- A vector's length is a positive machine word. -/
  fits : bytes.length < 2 ^ 63

abbrev Index := BitVec 64

def fromEnd (i : Index) (n : Nat) : Index := if i.toInt < 0 then i + BitVec.ofNat 64 n else i

def saturatingAdd (a b : Index) : Index :=
  if BitVec.saddOverflow a b then if a.toInt < 0 then BitVec.intMin 64 else BitVec.intMax 64
  else a + b

/-- `min` of two words. -/
def wordMin (a b : Index) : Index := if b.toInt < a.toInt then b else a

namespace StrBuf

def fromBytes (bytes : List UInt8) (enc : Encoding) (fits : bytes.length < 2 ^ 63) : StrBuf :=
  ⟨bytes, enc, .unknown, fun known => absurd rfl known, fits⟩

variable (s : StrBuf)

def classified : StrBuf :=
  if s.cache = .unknown then
    { s with cache := computeCoderange s.bytes s.enc, computed := fun _ => rfl }
  else s

def coderange : CodeRange := s.classified.cache

def asciiOnly : Bool := s.coderange = .sevenBit

def validEncoding : Bool := s.coderange ≠ .broken

/-- `char_ranges`, of a string. -/
def charRanges : List (Nat × Nat) := Enc.charRanges s.enc.kind s.bytes

def bytePerChar : Bool :=
  match s.enc.kind with
  | .ascii | .latin1 | .binary | .registered | .singleByte => true
  | .utf8 | .multiByte _ => s.asciiOnly
  | .utf16 _ | .utf32 _ => false

theorem length_slice_lt (r : Nat × Nat) : (slice s.bytes r).length < 2 ^ 63 := by
  unfold slice
  rw [length_take, length_drop]
  have fits := s.fits
  omega

def part (r : Nat × Nat) : StrBuf :=
  fromBytes (slice s.bytes r) s.enc (s.length_slice_lt r)

def charAt (i : Index) : Option StrBuf :=
  if s.bytePerChar then
    let idx := fromEnd i s.bytes.length
    if idx.toInt < 0 then none
    else if idx.toNat < s.bytes.length then some (s.part (idx.toNat, idx.toNat + 1))
    else none
  else
    let ranges := s.charRanges
    let idx := fromEnd i ranges.length
    if idx.toInt < 0 then none else (ranges[idx.toNat]?).map s.part

def charSubstr (start len : Index) : Option StrBuf :=
  if s.bytePerChar then
    let n := BitVec.ofNat 64 s.bytes.length
    let start := fromEnd start s.bytes.length
    if start.toInt < 0 ∨ n.toInt < start.toInt ∨ len.toInt < 0 then none
    else
      let stop := wordMin (saturatingAdd start len) n
      some (s.part (start.toNat, stop.toNat))
  else
    let ranges := s.charRanges
    let n := BitVec.ofNat 64 ranges.length
    let start := fromEnd start ranges.length
    if start.toInt < 0 ∨ n.toInt < start.toInt ∨ len.toInt < 0 then none
    else
      let stop := wordMin (saturatingAdd start len) n
      if start = stop then some (s.part (0, 0))
      else do
        let first ← ranges[start.toNat]?
        let last ← ranges[(stop - 1).toNat]?
        return s.part (first.1, last.2)

/-- `reversed`, its bytes. -/
def reversedBytes : List UInt8 := s.charRanges.reverse.flatMap (slice s.bytes)

def charLen : Nat :=
  match s.enc.kind with
  | .ascii | .latin1 | .binary | .registered | .singleByte => s.bytes.length
  | .utf8 | .multiByte _ => if s.asciiOnly then s.bytes.length else s.charRanges.length
  | .utf16 _ | .utf32 _ => s.charRanges.length

theorem coderange_eq : s.coderange = computeCoderange s.bytes s.enc := by
  unfold coderange classified
  split
  · rfl
  · rename_i known
    exact s.computed known

theorem classified_eq : s.classified.bytes = s.bytes ∧ s.classified.enc = s.enc := by
  unfold classified
  split <;> exact ⟨rfl, rfl⟩

theorem exists_characters : ∃ us, Walks s.enc.kind s.bytes us :=
  exists_walks s.enc.kind s.bytes

end StrBuf

theorem Walks.slices {us : List (List UInt8)}
    (walks : Walks kind bytes us) : (charRanges kind bytes).map (slice bytes) = us := by
  rw [walks.ranges, ← walks.whole]
  exact map_slice_boundsOf [] us

namespace StrBuf

variable {s : StrBuf} {us : List (List UInt8)}

theorem reversedBytes_eq (walks : Walks s.enc.kind s.bytes us) :
    s.reversedBytes = us.reverse.flatten := by
  unfold reversedBytes charRanges
  rw [flatMap_def, map_reverse, walks.slices]

theorem length_reversedBytes (s : StrBuf) : s.reversedBytes.length = s.bytes.length := by
  obtain ⟨us, walks⟩ := s.exists_characters
  rw [reversedBytes_eq walks, length_flatten_reverse, walks.whole]

def reversed (s : StrBuf) : StrBuf :=
  fromBytes s.reversedBytes s.enc (s.length_reversedBytes ▸ s.fits)

theorem asciiOnly_iff :
    s.asciiOnly = true ↔ s.enc.asciiCompatible = true ∧ ∀ b ∈ s.bytes, b.toNat < 0x80 := by
  rw [asciiOnly, coderange_eq]
  unfold computeCoderange
  split
  · rename_i low
    simpa using low
  · rename_i high
    refine ⟨fun seven => ?_, fun low => absurd (by simpa using low) high⟩
    split at seven <;> (try split at seven) <;> cases seven

theorem asciiOnly_characters (ascii : s.asciiOnly = true) :
    ∀ u ∈ s.bytes.map fun b => [b], IsCharacter s.enc.kind u := by
  intro u mem
  obtain ⟨b, listed, rfl⟩ := mem_map.mp mem
  obtain ⟨compatible, low⟩ := asciiOnly_iff.mp ascii
  exact isCharacter_low (s.enc.wide compatible) (low b listed)

theorem bytePerChar_walks (single : s.bytePerChar = true) :
    Walks s.enc.kind s.bytes (s.bytes.map fun b => [b]) := by
  have ascii := asciiOnly_characters (s := s)
  suffices walks : Walks s.enc.kind (s.bytes.map fun b => [b]).flatten (s.bytes.map fun b => [b]) by
    rwa [flatten_singles] at walks
  unfold bytePerChar at single
  cases isKind : s.enc.kind with
  | utf8 | multiByte family =>
    rw [isKind] at single ascii
    exact walks_of_characters (ascii single)
  | utf16 be | utf32 be =>
    rw [isKind] at single
    exact absurd single Bool.false_ne_true
  | _ =>
    refine walks_singles (fun u mem => ?_) fun _ => rfl
    obtain ⟨b, -, rfl⟩ := mem_map.mp mem
    exact ⟨b, rfl⟩

theorem charLen_eq (s : StrBuf) : s.charLen = s.charRanges.length := by
  have shortcut : s.bytePerChar = true → s.charRanges.length = s.bytes.length := fun single => by
    unfold charRanges
    rw [(bytePerChar_walks single).ranges, length_boundsOf, length_map]
  unfold charLen
  unfold bytePerChar at shortcut
  cases isKind : s.enc.kind with
  | utf16 be | utf32 be => rfl
  | utf8 | multiByte family =>
    rw [isKind] at shortcut
    dsimp only
    split
    · rename_i ascii
      exact (shortcut ascii).symm
    · rfl
  | _ =>
    rw [isKind] at shortcut
    exact (shortcut rfl).symm

theorem length_charRanges_lt (s : StrBuf) : s.charRanges.length < 2 ^ 63 := by
  obtain ⟨us, walks⟩ := s.exists_characters
  have fits := s.fits
  have enough : us.length ≤ us.flatten.length := by
    have nonempty := walks.nonempty
    clear walks
    induction us with
    | nil => exact Nat.le_refl _
    | cons u us ih =>
      obtain ⟨some_, others⟩ := forall_mem_cons.mp nonempty
      have positive := length_pos_of_ne_nil some_
      have later := ih others
      rw [length_cons, flatten_cons, length_append]
      omega
  unfold charRanges
  rw [walks.ranges, length_boundsOf]
  rw [walks.whole] at enough
  omega

end StrBuf

variable {n : Nat}

theorem toInt_ofLength (fits : n < 2 ^ 63) : (BitVec.ofNat 64 n).toInt = n := by
  rw [BitVec.toInt_ofNat']
  exact Int.bmod_eq_of_le (by omega) (by omega)

theorem toInt_fromEnd (i : Index) (fits : n < 2 ^ 63) :
    (fromEnd i n).toInt = if i.toInt < 0 then i.toInt + n else i.toInt := by
  unfold fromEnd
  split
  · have low := i.le_toInt
    rw [BitVec.toInt_add, toInt_ofLength fits]
    exact Int.bmod_eq_of_le (by omega) (by omega)
  · rfl

theorem toNat_of_nonneg {i : Index} (nonneg : 0 ≤ i.toInt) : i.toNat = i.toInt.toNat := by
  rw [BitVec.toInt_eq_toNat_cond] at nonneg ⊢
  split at nonneg
  · rw [if_pos (by assumption)]
    rfl
  · omega

variable {start len : Index}

theorem toInt_stop (fits : n < 2 ^ 63) (startNonneg : 0 ≤ start.toInt) (lenNonneg : 0 ≤ len.toInt) :
    (wordMin (saturatingAdd start len) (BitVec.ofNat 64 n)).toInt =
      min (start.toInt + len.toInt) n := by
  have sum : (saturatingAdd start len).toInt = min (start.toInt + len.toInt) (2 ^ 63 - 1) := by
    unfold saturatingAdd
    by_cases overflow : BitVec.saddOverflow start len = true
    · rw [if_pos overflow, if_neg (by omega)]
      have large : 2 ^ 63 ≤ start.toInt + len.toInt := by
        unfold BitVec.saddOverflow at overflow
        simp only [Bool.or_eq_true, decide_eq_true_eq] at overflow
        omega
      rw [Int.min_eq_right (by omega)]
      decide
    · rw [if_neg overflow, BitVec.toInt_add_of_not_saddOverflow overflow]
      unfold BitVec.saddOverflow at overflow
      simp only [Bool.or_eq_true, decide_eq_true_eq] at overflow
      omega
  unfold wordMin
  rw [toInt_ofLength fits]
  split
  · rw [toInt_ofLength fits]
    omega
  · omega

/-- The position that an index selects among `n`. -/
def place (n : Nat) (i : Int) : Option Nat :=
  let j := if i < 0 then i + n else i
  if j < 0 then none else some j.toNat

theorem place_fromEnd (i : Index) (fits : n < 2 ^ 63) :
    place n i.toInt =
      if (fromEnd i n).toInt < 0 then none else some (fromEnd i n).toNat := by
  unfold place
  dsimp only
  rw [← toInt_fromEnd i fits]
  split
  · rfl
  · rename_i nonneg
    rw [toNat_of_nonneg (Int.not_lt.mp nonneg)]

def picked (ranges : List (Nat × Nat)) (i : Int) : Option (Nat × Nat) :=
  (place ranges.length i).bind fun k => ranges[k]?

theorem stop_between (fits : n < 2 ^ 63)
    (inside : ¬(start.toInt < 0 ∨ (BitVec.ofNat 64 n).toInt < start.toInt ∨ len.toInt < 0)) :
    start.toNat ≤ (wordMin (saturatingAdd start len) (BitVec.ofNat 64 n)).toNat ∧
      (wordMin (saturatingAdd start len) (BitVec.ofNat 64 n)).toNat =
        min (start.toNat + len.toInt.toNat) n := by
  rw [toInt_ofLength fits] at inside
  have startNonneg : 0 ≤ start.toInt := by omega
  have stop := toInt_stop fits startNonneg (show 0 ≤ len.toInt by omega)
  rw [toNat_of_nonneg startNonneg, toNat_of_nonneg (by rw [stop]; omega)]
  omega

def chosen (ranges : List (Nat × Nat)) (start len : Int) : Option (List (Nat × Nat)) :=
  (place ranges.length start).bind fun st =>
    if ranges.length < st ∨ len < 0 then none else some ((ranges.drop st).take len.toNat)

theorem chosen_fromEnd {ranges : List (Nat × Nat)} {start len st : Index}
    (fits : ranges.length < 2 ^ 63) (isStart : st = fromEnd start ranges.length) :
    chosen ranges start.toInt len.toInt =
      if st.toInt < 0 ∨ (BitVec.ofNat 64 ranges.length).toInt < st.toInt ∨ len.toInt < 0 then none
      else some ((ranges.drop st.toNat).take
        ((wordMin (saturatingAdd st len) (BitVec.ofNat 64 ranges.length)).toNat - st.toNat)) := by
  unfold chosen
  rw [place_fromEnd start fits, ← isStart]
  by_cases negative : st.toInt < 0
  · rw [if_pos negative, if_pos (Or.inl negative)]
    rfl
  rw [if_neg negative, Option.bind_some]
  have value := toNat_of_nonneg (Int.not_lt.mp negative)
  have length := toInt_ofLength fits
  split
  · rw [if_pos (by omega)]
  · have guard : ¬(st.toInt < 0 ∨ (BitVec.ofNat 64 ranges.length).toInt < st.toInt ∨
        len.toInt < 0) := by omega
    obtain ⟨-, stop⟩ := stop_between fits guard
    rw [if_neg guard]
    congr 1
    refine take_eq_take_iff.mpr ?_
    rw [length_drop]
    omega

namespace StrBuf

variable {s : StrBuf} {us : List (List UInt8)}

theorem getElem?_bounds_singles {k : Nat} (inside : k < bytes.length) :
    (boundsOf 0 (bytes.map fun b => [b]))[k]? = some (k, k + 1) := by
  rw [getElem?_boundsOf 0 _ k (by rwa [length_map]), ← map_take, ← map_take,
    flatten_singles, flatten_singles, length_take, length_take]
  congr 2 <;> omega

theorem charAt_eq (s : StrBuf) (i : Index) :
    s.charAt i = (picked s.charRanges i.toInt).map s.part := by
  unfold charAt picked
  by_cases single : s.bytePerChar = true
  · have ranges : s.charRanges = _ := (bytePerChar_walks single).ranges
    have count : s.charRanges.length = s.bytes.length := by
      rw [ranges, length_boundsOf, length_map]
    rw [if_pos single, count, place_fromEnd i s.fits]
    dsimp only
    split
    · rfl
    · rw [Option.bind_some]
      split
      · rename_i inside
        rw [ranges, getElem?_bounds_singles inside]
        rfl
      · rw [List.getElem?_eq_none (by omega)]
        rfl
  · rw [if_neg single, place_fromEnd i s.length_charRanges_lt]
    dsimp only
    split <;> rfl

theorem charSubstr_eq (s : StrBuf) (start len : Index) :
    (s.charSubstr start len).map (fun t => (t.bytes, t.enc)) =
      (chosen s.charRanges start.toInt len.toInt).map
        fun rs => (rs.flatMap (slice s.bytes), s.enc) := by
  have fits := s.length_charRanges_lt
  rw [chosen_fromEnd fits rfl]
  unfold charSubstr
  by_cases single : s.bytePerChar = true
  · have walks := bytePerChar_walks single
    have ranges : s.charRanges = _ := walks.ranges
    have count : s.charRanges.length = s.bytes.length := by
      rw [ranges, length_boundsOf, length_map]
    rw [if_pos single, count]
    dsimp only
    split
    · rfl
    · refine congrArg (fun bytes => some (bytes, s.enc)) ?_
      have pieces := flatMap_slice_pieces (s.bytes.map fun b => [b])
      rw [walks.whole] at pieces
      rw [ranges, pieces, ← map_drop, ← map_take, flatten_singles]
      rfl
  · obtain ⟨us, walks⟩ := s.exists_characters
    have ranges : s.charRanges = boundsOf 0 us := walks.ranges
    have count : s.charRanges.length = us.length := by rw [ranges, length_boundsOf]
    rw [if_neg single]
    dsimp only
    split
    · rfl
    rename_i inside
    obtain ⟨below, stop⟩ := stop_between fits inside
    generalize wordMin (saturatingAdd (fromEnd start s.charRanges.length) len)
      (BitVec.ofNat 64 s.charRanges.length) = last at below stop ⊢
    generalize fromEnd start s.charRanges.length = first at below inside stop ⊢
    have pieces := flatMap_slice_pieces us first.toNat (last.toNat - first.toNat)
    have whole := slice_pieces us first.toNat (last.toNat - first.toNat)
    rw [walks.whole] at pieces whole
    by_cases empty : first = last
    · rw [if_pos empty, empty, Nat.sub_self]
      rfl
    · have differ : first.toNat ≠ last.toNat := fun same => empty (BitVec.eq_of_toNat_eq same)
      have before : (last - 1).toNat = last.toNat - 1 := by
        change (2 ^ 64 - 1 + last.toNat) % 2 ^ 64 = last.toNat - 1
        omega
      rw [if_neg empty, before, ranges, Option.map_some, pieces,
        getElem?_boundsOf 0 us _ (by omega), getElem?_boundsOf 0 us _ (by omega), ← whole]
      simp only [Nat.zero_add, show last.toNat - 1 + 1 = last.toNat by omega,
        show first.toNat + (last.toNat - first.toNat) = last.toNat by omega]
      rfl

theorem reversed_walks (isValid : s.validEncoding = true) :
    ∃ us, Walks s.enc.kind s.bytes us ∧ Walks s.enc.kind s.reversed.bytes us.reverse ∧
      s.reversed.validEncoding = true := by
  have notBroken : computeCoderange s.bytes s.enc ≠ .broken := by
    rw [← coderange_eq]
    exact of_decide_eq_true isValid
  obtain ⟨us, walks, recombined⟩ := recombines notBroken
  obtain ⟨again, stillValid⟩ := recombined us.reverse fun v mem => mem_reverse.mp mem
  have bytes : s.reversed.bytes = us.reverse.flatten := reversedBytes_eq walks
  refine ⟨us, walks, bytes ▸ again, decide_eq_true ?_⟩
  rw [coderange_eq, bytes]
  exact stillValid

/-- Character indexing is one partition. The ranges are not empty, follow each other and cover the
bytes; the length counts them; an index, and a start with a length, take the bytes of the ranges
they select, whichever way they are computed. A valid string reversed is valid, its ranges are the
mirrored ones in reverse order, and reversing it again gives the string back. -/
theorem characters_partition (s : StrBuf) (i start len : Index) :
    Tiles 0 s.charRanges s.bytes.length ∧
    s.charLen = s.charRanges.length ∧
    (s.charAt i).map (fun t => (t.bytes, t.enc)) =
      (picked s.charRanges i.toInt).map (fun r => (slice s.bytes r, s.enc)) ∧
    (s.charSubstr start len).map (fun t => (t.bytes, t.enc)) =
      (chosen s.charRanges start.toInt len.toInt).map
        (fun rs => (rs.flatMap (slice s.bytes), s.enc)) ∧
    (s.validEncoding = true →
      s.reversed.validEncoding = true ∧ s.reversed.reversed.bytes = s.bytes ∧
      s.reversed.charRanges =
        (s.charRanges.map fun r => (s.bytes.length - r.2, s.bytes.length - r.1)).reverse ∧
      s.reversed.charRanges.map (slice s.reversed.bytes) =
        (s.charRanges.map (slice s.bytes)).reverse) := by
  refine ⟨?_, s.charLen_eq, ?_, s.charSubstr_eq start len, fun isValid => ?_⟩
  · obtain ⟨us, walks⟩ := s.exists_characters
    have tiles := tiles_boundsOf 0 us walks.nonempty
    rwa [← walks.ranges, walks.whole, Nat.zero_add] at tiles
  · rw [charAt_eq, Option.map_map]
    rfl
  · obtain ⟨us, walks, again, stillValid⟩ := reversed_walks isValid
    have twice : s.reversed.reversedBytes = us.reverse.reverse.flatten := reversedBytes_eq again
    rw [reverse_reverse, walks.whole] at twice
    refine ⟨stillValid, twice, ?_, ?_⟩
    · change Enc.charRanges s.enc.kind s.reversed.bytes =
        ((Enc.charRanges s.enc.kind s.bytes).map _).reverse
      rw [again.ranges, walks.ranges, ← walks.whole]
      exact boundsOf_reverse us _ 0 (Nat.zero_add _).symm
    · change (Enc.charRanges s.enc.kind s.reversed.bytes).map _ =
        ((Enc.charRanges s.enc.kind s.bytes).map _).reverse
      rw [again.slices, walks.slices]

/-- The law at `"éa"` in UTF-8: its reverse is valid, and reverses to it. -/
theorem characters_partition_accent :
    let s := fromBytes [0xC3, 0xA9, 0x61] ⟨.utf8, true, fun _ => rfl⟩ (by decide)
    s.validEncoding = true ∧ s.charRanges = [(0, 2), (2, 3)] ∧ s.charLen = 2 ∧
      s.reversed.bytes = [0x61, 0xC3, 0xA9] ∧ s.reversed.validEncoding = true ∧
      s.reversed.reversed.bytes = s.bytes := by
  intro s
  have isValid : s.validEncoding = true := by decide
  have ranges : s.charRanges = [(0, 2), (2, 3)] := by decide
  obtain ⟨-, count, -, -, mirrored⟩ := characters_partition s 0 0 0
  obtain ⟨stillValid, twice, -⟩ := mirrored isValid
  exact ⟨isValid, ranges, count.trans (by rw [ranges]; rfl), by decide, stillValid, twice⟩

end StrBuf

end Zeo.Enc
