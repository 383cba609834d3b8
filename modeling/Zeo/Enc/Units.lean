import Zeo.Lib.Utf8

/-!
# Characters of the encoding families

How a byte string falls into characters depends on the family of its encoding: UTF-8, one byte per
character, the multibyte CJK families, and UTF-16 and UTF-32 in either byte order. Each family has
a walker that classifies the unit at the front of what is left. Every walker takes a string apart
completely, and a valid unit is classified by its own bytes.
-/

namespace Zeo.Enc

open Zeo.Lib Zeo.Lib.Scan List Bool

/-- `MbFamily`: the multibyte families. -/
inductive MbFamily where
  | sjis
  | eucJp
  | gbk
  | big5
  | eucKr
  | cp949
  | gb18030
deriving DecidableEq

/-- `EncKind`: how an encoding maps bytes to characters. -/
inductive EncKind where
  | utf8
  | ascii
  /-- One byte per character, the byte being the codepoint. -/
  | latin1
  | binary
  /-- One byte per character through a table. -/
  | singleByte
  | multiByte (family : MbFamily)
  | utf16 (be : Bool)
  | utf32 (be : Bool)
  /-- Registered by name only. -/
  | registered
deriving DecidableEq

/-- `InvalidStyle`: which message a malformed unit gets. -/
inductive InvalidStyle where
  | plain
  /-- A valid lead with this byte behind it. -/
  | followedBy (b : UInt8)
  | incomplete
deriving DecidableEq

/-- Whether a byte lies in `lo..=hi`. -/
def within (b : UInt8) (lo hi : Nat) : Bool := lo ≤ b.toNat && b.toNat ≤ hi

/-- `MbUnit`: one structural unit of a multibyte string. -/
structure MbUnit where
  len : Nat
  valid : Bool
  style : InvalidStyle

/-- `mb::ok`. -/
def mbOk (len : Nat) : MbUnit := ⟨len, true, .plain⟩

/-- `mb::bad`: an invalid unit is one byte. -/
def mbBad (style : InvalidStyle) : MbUnit := ⟨1, false, style⟩

/-- `follow`: a lead that expects `need` trail bytes. -/
def follow (bytes : List UInt8) (need : Nat) (trail : UInt8 → Bool) : MbUnit :=
  if bytes.length ≤ need then mbBad .incomplete
  else
    match ((bytes.drop 1).take need).find? fun t => !trail t with
    | some t => mbBad (.followedBy t)
    | none => mbOk (need + 1)

/-- The leads of each family's two-byte form. -/
def mbLead : MbFamily → UInt8 → Bool
  | .sjis, b => within b 0x81 0x9F || within b 0xE0 0xFC
  | .eucJp, b => within b 0x8E 0x8E || within b 0xA1 0xFE
  | .gbk, b => within b 0x81 0xFE
  | .big5, b => within b 0xA1 0xFE
  | .eucKr, b => within b 0xA1 0xFE
  | .cp949, b => within b 0x81 0xFE
  | .gb18030, b => within b 0x81 0xFE

/-- The trail bytes of each family's two-byte form (and of EUC-JP's three-byte form). -/
def mbTrail : MbFamily → UInt8 → Bool
  | .sjis, t => within t 0x40 0x7E || within t 0x80 0xFC
  | .eucJp, t => within t 0xA1 0xFE
  | .gbk, t => within t 0x40 0x7E || within t 0x80 0xFE
  | .big5, t => within t 0x40 0x7E || within t 0xA1 0xFE
  | .eucKr, t => within t 0xA1 0xFE
  | .cp949, t => within t 0x41 0x5A || within t 0x61 0x7A || within t 0x81 0xFE
  | .gb18030, t => within t 0x40 0x7E || within t 0x80 0xFE

/-- GB18030's four-byte form, once the second byte is a digit. -/
def fourBytes : List UInt8 → MbUnit
  | _ :: _ :: c :: d :: _ =>
    if within c 0x81 0xFE && within d 0x30 0x39 then mbOk 4 else mbBad (.followedBy c)
  | _ => mbBad .incomplete

/-- `mb_unit`: the unit that starts at the first byte. -/
def mbUnit (family : MbFamily) (bytes : List UInt8) : MbUnit :=
  let b := bytes.headD 0
  if b.toNat < 0x80 then mbOk 1
  -- Shift_JIS's halfwidth kana are single bytes.
  else if family = .sjis && within b 0xA1 0xDF then mbOk 1
  -- EUC-JP's SS3 takes two trail bytes.
  else if family = .eucJp && within b 0x8F 0x8F then follow bytes 2 (mbTrail family)
  else if mbLead family b then
    -- GB18030's four-byte form: a digit never trails the two-byte one.
    if family = .gb18030 && (bytes[1]?).any fun t => within t 0x30 0x39 then fourBytes bytes
    else follow bytes 1 (mbTrail family)
  else mbBad .plain

def mbScan (family : MbFamily) (bs : List UInt8) : Nat × Bool :=
  ((mbUnit family bs).len, (mbUnit family bs).valid)

/-- `mb_ranges`: every unit, with its validity. -/
def mbRanges (family : MbFamily) (bytes : List UInt8) : List (Span Bool) :=
  scan (mbScan family) bytes

theorem follow_cases (bytes : List UInt8) (need : Nat) (trail : UInt8 → Bool) :
    ((follow bytes need trail).len = 1 ∧ (follow bytes need trail).valid = false) ∨
      (need < bytes.length ∧ follow bytes need trail = mbOk (need + 1) ∧
        ((bytes.drop 1).take need).find? (fun t => !trail t) = none) := by
  unfold follow
  split
  · exact .inl ⟨rfl, rfl⟩
  · rename_i enough
    split
    · exact .inl ⟨rfl, rfl⟩
    · rename_i none
      exact .inr ⟨Nat.lt_of_not_le enough, rfl, none⟩

variable {bytes : List UInt8} {trail : UInt8 → Bool} {need : Nat}

theorem follow_stands (isValid : (follow bytes need trail).valid = true) (rest : List UInt8) :
    follow (bytes.take (follow bytes need trail).len ++ rest) need trail =
      follow bytes need trail := by
  rcases follow_cases bytes need trail with ⟨-, invalid⟩ | ⟨enough, ok, none⟩
  · exact absurd (invalid.symm.trans isValid) false_ne_true
  · rw [ok]
    change follow (bytes.take (need + 1) ++ rest) need trail = _
    unfold follow
    have length : (bytes.take (need + 1)).length = need + 1 := by
      rw [length_take]
      omega
    have trails : ((bytes.take (need + 1) ++ rest).drop 1).take need = (bytes.drop 1).take need := by
      rw [drop_append_of_le_length (by omega), drop_take, Nat.add_sub_cancel,
        take_append_of_le_length (by rw [length_take, length_drop]; omega),
        take_take, Nat.min_self]
    rw [if_neg (by rw [length_append]; omega), trails, none]

/-- What a multibyte unit can be: invalid, one byte that decides alone, a lead with its trail bytes,
or GB18030's four bytes. The first two bytes decide which. -/
theorem mbUnit_cases (family : MbFamily) (bytes : List UInt8) :
    (∃ style, mbUnit family bytes = mbBad style) ∨
      (∀ other, other.headD 0 = bytes.headD 0 → mbUnit family other = mbOk 1) ∨
      (∃ need, 0 < need ∧ ∀ other, other.headD 0 = bytes.headD 0 → other[1]? = bytes[1]? →
        mbUnit family other = follow other need (mbTrail family)) ∨
      ∃ a b c d rest, bytes = a :: b :: c :: d :: rest ∧
        ∀ rest, mbUnit family (a :: b :: c :: d :: rest) = mbOk 4 := by
  by_cases low : (bytes.headD 0).toNat < 0x80
  · refine .inr (.inl fun other head => ?_)
    simp only [mbUnit, head, if_pos low]
  by_cases kana : (decide (family = .sjis) && within (bytes.headD 0) 0xA1 0xDF) = true
  · refine .inr (.inl fun other head => ?_)
    simp only [mbUnit, head, if_neg low, if_pos kana]
  by_cases third : (decide (family = .eucJp) && within (bytes.headD 0) 0x8F 0x8F) = true
  · refine .inr (.inr (.inl ⟨2, Nat.two_pos, fun other head _ => ?_⟩))
    simp only [mbUnit, head, if_neg low, if_neg kana, if_pos third]
  by_cases lead : mbLead family (bytes.headD 0) = true
  · by_cases digit : (decide (family = .gb18030) &&
        (bytes[1]?).any fun t => within t 0x30 0x39) = true
    · have four : mbUnit family bytes = fourBytes bytes := by
        simp only [mbUnit, if_neg low, if_neg kana, if_neg third, if_pos lead, if_pos digit]
      rcases bytes with _ | ⟨a, _ | ⟨b, _ | ⟨c, _ | ⟨d, rest⟩⟩⟩⟩
      · exact .inl ⟨_, four⟩
      · exact .inl ⟨_, four⟩
      · exact .inl ⟨_, four⟩
      · exact .inl ⟨_, four⟩
      · have same : ∀ rest, mbUnit family (a :: b :: c :: d :: rest) =
            fourBytes (a :: b :: c :: d :: rest) := fun rest => by
          simp only [mbUnit, headD_cons, List.getElem?_cons_succ,
            List.getElem?_cons_zero] at low kana third lead digit ⊢
          simp only [if_neg low, if_neg kana, if_neg third, if_pos lead, if_pos digit]
        by_cases tail : (within c 0x81 0xFE && within d 0x30 0x39) = true
        · refine .inr (.inr (.inr ⟨a, b, c, d, rest, rfl, fun rest => ?_⟩))
          rw [same, fourBytes, if_pos tail]
        · refine .inl ⟨.followedBy c, ?_⟩
          rw [same, fourBytes, if_neg tail]
    · refine .inr (.inr (.inl ⟨1, Nat.one_pos, fun other head second => ?_⟩))
      simp only [mbUnit, head, second, if_neg low, if_neg kana, if_neg third, if_pos lead,
        if_neg digit]
  · refine .inl ⟨.plain, ?_⟩
    simp only [mbUnit, if_neg low, if_neg kana, if_neg third, if_neg lead]

variable {family : MbFamily}

theorem mbScan_proper (family : MbFamily) : Proper (mbScan family) := by
  intro bytes some_
  have one : 1 ≤ bytes.length := length_pos_of_ne_nil some_
  change 0 < (mbUnit family bytes).len ∧ (mbUnit family bytes).len ≤ bytes.length
  rcases mbUnit_cases family bytes with ⟨style, bad⟩ | single | ⟨need, -, followed⟩ |
    ⟨a, b, c, d, rest, rfl, four⟩
  · rw [bad]
    exact ⟨Nat.one_pos, one⟩
  · rw [single bytes rfl]
    exact ⟨Nat.one_pos, one⟩
  · rw [followed bytes rfl rfl]
    rcases follow_cases bytes need (mbTrail family) with ⟨len, -⟩ | ⟨enough, ok, -⟩
    · rw [len]
      exact ⟨Nat.one_pos, one⟩
    · rw [ok]
      exact ⟨Nat.succ_pos need, enough⟩
  · rw [four rest]
    exact ⟨by decide, by simp only [length_cons]; change 4 ≤ _; omega⟩

theorem mbScan_stands {u rest : List UInt8} (some_ : u ≠ [])
    (classified : mbScan family (u ++ rest) = (u.length, true)) :
    Stands (mbScan family) (u, true) := by
  refine ⟨some_, fun other => ?_⟩
  obtain ⟨length, isValid⟩ := Prod.mk.inj classified
  obtain ⟨b, u, rfl⟩ := exists_cons_of_ne_nil some_
  suffices same : mbUnit family ((b :: u) ++ other) = mbUnit family ((b :: u) ++ rest) by
    change ((mbUnit family (b :: u ++ other)).len, (mbUnit family (b :: u ++ other)).valid) = _
    rw [same]
    exact classified
  rcases mbUnit_cases family ((b :: u) ++ rest) with ⟨style, bad⟩ | single |
    ⟨need, positive, followed⟩ | ⟨a, c, d, e, tail, whole, four⟩
  · rw [bad] at isValid
    exact absurd isValid false_ne_true
  · rw [single _ rfl, single ((b :: u) ++ other) rfl]
  · have here := followed _ rfl rfl
    rw [here] at length isValid
    rcases follow_cases ((b :: u) ++ rest) need (mbTrail family) with ⟨-, invalid⟩ | ⟨-, ok, -⟩
    · exact absurd (invalid.symm.trans isValid) false_ne_true
    · have long : (b :: u).length = need + 1 := by
        rw [← length, ok]
        rfl
      obtain ⟨c, v, rfl⟩ : ∃ c v, u = c :: v :=
        exists_cons_of_length_pos (by rw [length_cons] at long; omega)
      have stands := follow_stands isValid other
      rw [length, take_left] at stands
      rw [here, followed ((b :: c :: v) ++ other) rfl rfl, stands]
  · have long : (b :: u).length = 4 := by
      rw [← length, whole, four tail]
      rfl
    obtain ⟨c', d', e', rfl⟩ : ∃ c' d' e', u = [c', d', e'] :=
      length_eq_three.mp (by rw [length_cons] at long; omega)
    cases whole
    exact (four other).trans (four rest).symm

/-- `Wide`: the layout of a wide encoding. -/
structure Wide where
  width : Nat
  be : Bool
deriving DecidableEq

/-- `wide_of`: the layout of a `utf16`/`utf32` kind. -/
def wideOf : EncKind → Option Wide
  | .utf16 be => some ⟨2, be⟩
  | .utf32 be => some ⟨4, be⟩
  | _ => none

/-- `WideUnit`: one decoded unit, with its scalar if it is valid. -/
structure WideUnit where
  len : Nat
  scalar : Option Char
  style : InvalidStyle

/-- `char::from_u32`: the character of a codepoint that is no surrogate and not too large. -/
def charFromU32 (n : Nat) : Option Char :=
  if n < 0xD800 ∨ (0xDFFF < n ∧ n < 0x110000) then some (Char.ofNat n) else none

/-- Two bytes in an order (`read16`). -/
def pair (be : Bool) (a b : UInt8) : Nat :=
  if be then a.toNat * 256 + b.toNat else b.toNat * 256 + a.toNat

def quad (be : Bool) (a b c d : UInt8) : Nat :=
  if be then pair be a b * 65536 + pair be c d else pair be c d * 65536 + pair be a b

/-- `wide_unit` of a two-byte layout. -/
def wideUnit16 (be : Bool) : List UInt8 → WideUnit
  | a :: b :: rest =>
    let u := pair be a b
    if 0xD800 ≤ u ∧ u ≤ 0xDBFF then
      match rest with
      | c :: d :: _ =>
        let lo := pair be c d
        if 0xDC00 ≤ lo ∧ lo ≤ 0xDFFF then
          ⟨4, charFromU32 (0x10000 + (u - 0xD800) * 1024 + (lo - 0xDC00)), .plain⟩
        else ⟨2, none, .followedBy c⟩
      | _ => ⟨2, none, .incomplete⟩
    else if 0xDC00 ≤ u ∧ u ≤ 0xDFFF then ⟨2, none, .plain⟩
    else ⟨2, charFromU32 u, .plain⟩
  | bytes => ⟨bytes.length, none, .incomplete⟩

/-- `wide_unit` of a four-byte layout. -/
def wideUnit32 (be : Bool) : List UInt8 → WideUnit
  | a :: b :: c :: d :: _ => ⟨4, charFromU32 (quad be a b c d), .plain⟩
  | bytes => ⟨bytes.length, none, .incomplete⟩

/-- `wide_unit`: the unit that starts at the first byte. -/
def wideUnit (w : Wide) (bytes : List UInt8) : WideUnit :=
  if w.width = 4 then wideUnit32 w.be bytes else wideUnit16 w.be bytes

def wideScan (w : Wide) (bs : List UInt8) : Nat × (Option Char × InvalidStyle) :=
  ((wideUnit w bs).len, (wideUnit w bs).scalar, (wideUnit w bs).style)

/-- `wide_ranges`: every unit, with its scalar. -/
def wideRanges (w : Wide) (bytes : List UInt8) : List (Span (Option Char × InvalidStyle)) :=
  scan (wideScan w) bytes

def bytes16 (be : Bool) (n : Nat) : List UInt8 :=
  if be then [UInt8.ofNat (n / 256), UInt8.ofNat (n % 256)]
  else [UInt8.ofNat (n % 256), UInt8.ofNat (n / 256)]

/-- `char::encode_utf16`. -/
def encodeUtf16 (c : Char) : List Nat :=
  let n := c.val.toNat
  if n < 0x10000 then [n] else [0xD800 + (n - 0x10000) / 1024, 0xDC00 + (n - 0x10000) % 1024]

def wideEncodeChar (w : Wide) (c : Char) : List UInt8 :=
  if w.width = 4 then
    let n := c.val.toNat
    if w.be then bytes16 true (n / 65536) ++ bytes16 true (n % 65536)
    else bytes16 false (n % 65536) ++ bytes16 false (n / 65536)
  else (encodeUtf16 c).flatMap (bytes16 w.be)

theorem wideScan_proper (w : Wide) : Proper (wideScan w) := by
  intro bytes some_
  change 0 < (wideUnit w bytes).len ∧ (wideUnit w bytes).len ≤ bytes.length
  have fragment : ∀ bs : List UInt8, bs ≠ [] → 0 < bs.length ∧ bs.length ≤ bs.length :=
    fun bs nonempty => ⟨length_pos_of_ne_nil nonempty, Nat.le_refl _⟩
  unfold wideUnit
  split
  · rcases bytes with _ | ⟨a, _ | ⟨b, _ | ⟨c, _ | ⟨d, rest⟩⟩⟩⟩
    · exact absurd rfl some_
    · exact fragment _ some_
    · exact fragment _ some_
    · exact fragment _ some_
    · exact ⟨by simp [wideUnit32], by simp [wideUnit32]⟩
  · rcases bytes with _ | ⟨a, _ | ⟨b, rest⟩⟩
    · exact absurd rfl some_
    · exact fragment _ some_
    · unfold wideUnit16
      simp only
      split
      · rcases rest with _ | ⟨c, _ | ⟨d, rest⟩⟩
        · simp
        · simp
        · simp only
          split <;> simp
      · split <;> simp

theorem wideUnit16_single {be : Bool} {a b : UInt8}
    (high : ¬(0xD800 ≤ pair be a b ∧ pair be a b ≤ 0xDBFF))
    (low : ¬(0xDC00 ≤ pair be a b ∧ pair be a b ≤ 0xDFFF)) (rest : List UInt8) :
    wideUnit16 be (a :: b :: rest) = ⟨2, charFromU32 (pair be a b), .plain⟩ := by
  simp only [wideUnit16, if_neg high, if_neg low]

theorem wideUnit16_surrogates {be : Bool} {a b c d : UInt8}
    (high : 0xD800 ≤ pair be a b ∧ pair be a b ≤ 0xDBFF)
    (low : 0xDC00 ≤ pair be c d ∧ pair be c d ≤ 0xDFFF) (rest : List UInt8) :
    wideUnit16 be (a :: b :: c :: d :: rest) = ⟨4, charFromU32
      (0x10000 + (pair be a b - 0xD800) * 1024 + (pair be c d - 0xDC00)), .plain⟩ := by
  simp only [wideUnit16, if_pos high, if_pos low]

variable {w : Wide} {c : Char}

theorem wideUnit_valid (isValid : (wideUnit w bytes).scalar = some c) :
    (wideUnit w bytes).style ≠ .incomplete ∧ ∀ other,
      wideUnit w (bytes.take (wideUnit w bytes).len ++ other) = wideUnit w bytes := by
  unfold wideUnit at isValid ⊢
  by_cases four : w.width = 4
  · simp only [if_pos four] at isValid ⊢
    rcases bytes with _ | ⟨a, _ | ⟨b, _ | ⟨d, _ | ⟨e, rest⟩⟩⟩⟩
    · exact absurd isValid (by simp [wideUnit32])
    · exact absurd isValid (by simp [wideUnit32])
    · exact absurd isValid (by simp [wideUnit32])
    · exact absurd isValid (by simp [wideUnit32])
    · exact ⟨nofun, fun _ => rfl⟩
  · simp only [if_neg four] at isValid ⊢
    rcases bytes with _ | ⟨a, _ | ⟨b, rest⟩⟩
    · exact absurd isValid (by simp [wideUnit16])
    · exact absurd isValid (by simp [wideUnit16])
    · by_cases high : 0xD800 ≤ pair w.be a b ∧ pair w.be a b ≤ 0xDBFF
      · rcases rest with _ | ⟨d, _ | ⟨e, rest⟩⟩
        · exact absurd isValid (by simp [wideUnit16, high])
        · exact absurd isValid (by simp [wideUnit16, high])
        · by_cases low : 0xDC00 ≤ pair w.be d e ∧ pair w.be d e ≤ 0xDFFF
          · rw [wideUnit16_surrogates high low]
            exact ⟨nofun, wideUnit16_surrogates high low⟩
          · exact absurd isValid (by simp [wideUnit16, high, low])
      · by_cases low : 0xDC00 ≤ pair w.be a b ∧ pair w.be a b ≤ 0xDFFF
        · exact absurd isValid (by simp [wideUnit16, high, low])
        · rw [wideUnit16_single high low]
          exact ⟨nofun, wideUnit16_single high low⟩

theorem wideScan_stands (u rest : List UInt8) (info : Option Char × InvalidStyle)
    (some_ : u ≠ []) (classified : wideScan w (u ++ rest) = (u.length, info))
    (isChar : info.1.isSome = true) : Stands (wideScan w) (u, info) := by
  refine ⟨some_, fun other => ?_⟩
  obtain ⟨c, scalar⟩ := Option.isSome_iff_exists.mp isChar
  obtain ⟨length, rfl⟩ := Prod.mk.inj classified
  have again := (wideUnit_valid scalar).2 other
  rw [length, take_left] at again
  change ((wideUnit w (u ++ other)).len, _) = _
  rw [again]
  exact classified

theorem bytes16_pair (be : Bool) {n : Nat} (small : n < 0x10000) :
    ∃ a b, bytes16 be n = [a, b] ∧ pair be a b = n := by
  have low : (UInt8.ofNat (n % 256)).toNat = n % 256 := by
    rw [UInt8.toNat_ofNat']
    omega
  have high : (UInt8.ofNat (n / 256)).toNat = n / 256 := by
    rw [UInt8.toNat_ofNat']
    omega
  cases be
  · refine ⟨_, _, rfl, ?_⟩
    change (UInt8.ofNat (n / 256)).toNat * 256 + (UInt8.ofNat (n % 256)).toNat = n
    omega
  · refine ⟨_, _, rfl, ?_⟩
    change (UInt8.ofNat (n / 256)).toNat * 256 + (UInt8.ofNat (n % 256)).toNat = n
    omega

theorem charFromU32_val {n : Nat} (isVal : n = c.val.toNat) :
    charFromU32 n = some c := by
  have valid := Utf8.toNat_valid c
  unfold charFromU32
  rw [if_pos (by omega), isVal]
  exact congrArg some (Char.ofNat_toNat c)

theorem wideUnit_encode (w : Wide) (c : Char) (rest : List UInt8) :
    wideUnit w (wideEncodeChar w c ++ rest) = ⟨(wideEncodeChar w c).length, some c, .plain⟩ := by
  have valid := Utf8.toNat_valid c
  unfold wideUnit wideEncodeChar
  by_cases four : w.width = 4
  · simp only [if_pos four]
    obtain ⟨a, b, upper, upperPair⟩ := bytes16_pair w.be (n := c.val.toNat / 65536) (by omega)
    obtain ⟨d, e, lower, lowerPair⟩ := bytes16_pair w.be (n := c.val.toNat % 65536) (by omega)
    cases order : w.be
    · rw [order] at upper upperPair lower lowerPair
      simp only [upper, lower]
      have value : quad false d e a b = c.val.toNat := by
        change pair false a b * 65536 + pair false d e = _
        omega
      change (⟨4, charFromU32 (quad false d e a b), .plain⟩ : WideUnit) = _
      rw [charFromU32_val value]
      rfl
    · rw [order] at upper upperPair lower lowerPair
      simp only [upper, lower]
      have value : quad true a b d e = c.val.toNat := by
        change pair true a b * 65536 + pair true d e = _
        omega
      change (⟨4, charFromU32 (quad true a b d e), .plain⟩ : WideUnit) = _
      rw [charFromU32_val value]
      rfl
  · simp only [if_neg four]
    unfold encodeUtf16
    by_cases small : c.val.toNat < 0x10000
    · obtain ⟨a, b, bytes, isPair⟩ := bytes16_pair w.be small
      simp only [if_pos small, flatMap_cons, bytes]
      refine (wideUnit16_single (by omega) (by omega) rest).trans ?_
      rw [charFromU32_val isPair]
      rfl
    · obtain ⟨a, b, high, highPair⟩ :=
        bytes16_pair w.be (n := 0xD800 + (c.val.toNat - 0x10000) / 1024) (by omega)
      obtain ⟨d, e, low, lowPair⟩ :=
        bytes16_pair w.be (n := 0xDC00 + (c.val.toNat - 0x10000) % 1024) (by omega)
      simp only [if_neg small, flatMap_cons, high, low]
      refine (wideUnit16_surrogates (by omega) (by omega) rest).trans ?_
      have value : 0x10000 + (pair w.be a b - 0xD800) * 1024 + (pair w.be d e - 0xDC00) =
          c.val.toNat := by
        omega
      rw [charFromU32_val value]
      rfl

/-- `utf8_seq_len`: the length a leading byte claims. -/
def utf8SeqLen (lead : UInt8) : Nat :=
  if lead.toNat < 0x80 then 1
  else if within lead 0xC0 0xDF then 2
  else if within lead 0xE0 0xEF then 3
  else if within lead 0xF0 0xF7 then 4
  else 1

/-- The UTF-8 arm of `char_ranges`: a well-formed sequence, or one byte. -/
def utf8CharScan (bytes : List UInt8) : Nat × Unit :=
  let want := utf8SeqLen (bytes.headD 0)
  let sequence := bytes.take want
  (if 1 < want && Utf8.valid sequence then sequence.length else 1, ())

theorem utf8CharScan_proper : Proper utf8CharScan := by
  intro bytes some_
  have one : 1 ≤ bytes.length := length_pos_of_ne_nil some_
  unfold utf8CharScan
  simp only
  split
  · rename_i well
    rw [and_eq_true, decide_eq_true_eq] at well
    rw [length_take]
    omega
  · exact ⟨Nat.one_pos, one⟩

theorem utf8CharScan_stands {u : List UInt8} (spells : Utf8.Spells u c) :
    Stands utf8CharScan (u, ()) := by
  obtain ⟨a, v, rfl, width⟩ := spells.width
  refine ⟨cons_ne_nil a v, fun rest => ?_⟩
  have whole : Utf8.valid (a :: v) = true := by
    have cuts : Cuts Utf8.unit ((a :: v) ++ []) [(a :: v, .char c)] :=
      .piece (cons_ne_nil a v) (spells.unit []) .done
    rw [append_nil] at cuts
    refine Utf8.valid_of_cuts cuts fun p mem => ⟨c, ?_⟩
    rw [mem_singleton.mp mem]
  have want : utf8SeqLen a = (a :: v).length := by
    rw [← width]
    have positive : 0 < Utf8.width a.toNat := width ▸ Nat.succ_pos _
    unfold Utf8.width at positive ⊢
    unfold utf8SeqLen within
    simp only [Bool.and_eq_true, decide_eq_true_eq]
    split_ifs at positive ⊢ <;> omega
  unfold utf8CharScan
  simp only [cons_append, headD_cons, want]
  rw [← cons_append, take_left, whole, Bool.and_true]
  congr 1
  split
  · rfl
  · rename_i short
    rw [decide_eq_true_eq, length_cons] at short
    rw [length_cons]
    omega

theorem mbScan_low {b : UInt8} (low : b.toNat < 0x80) (rest : List UInt8) :
    mbScan family (b :: rest) = (1, true) := by
  have unit : mbUnit family (b :: rest) = mbOk 1 := if_pos low
  change ((mbUnit family (b :: rest)).len, (mbUnit family (b :: rest)).valid) = (1, true)
  rw [unit]
  rfl

def byteScan (_ : List UInt8) : Nat × Unit := (1, ())

theorem cuts_singles {A : Type} {unit : List UInt8 → Nat × A} {info : A}
    (single : ∀ b ∈ bytes, ∀ rest, unit (b :: rest) = (1, info)) :
    Cuts unit bytes (bytes.map fun b => ([b], info)) := by
  induction bytes with
  | nil => exact .done
  | cons b bytes ih =>
    exact .piece (cons_ne_nil b []) (single b mem_cons_self bytes)
      (ih fun c mem => single c (mem_cons_of_mem b mem))

end Zeo.Enc
