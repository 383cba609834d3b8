import Zeo.Value.Basic

/-!
# The order of strings

`<=>` compares the bytes of two strings and goes by their encodings on a tie, unless one of the two
has seven-bit characters only. `==` asks for the same bytes and the same tag. The two agree, and the
order is one, exactly where strings with the same bytes are all seven-bit or none of them is.
-/

namespace Zeo.Value

open Zeo.Enc

/-- An `Ordering` as a machine integer. -/
def ordInt : Ordering → Int
  | .lt => -1
  | .eq => 0
  | .gt => 1

def encodingTiebreak (x y : StrBuf) : Int :=
  if x.enc = y.enc ∨ x.asciiOnly ∨ y.asciiOnly then 0
  else ((x.enc.val : Int) - y.enc.val).sign

/-- The body of `str_byte_cmp` under both locks. -/
def lockedCmp (x y : StrBuf) : Int :=
  if ordInt (compare x.bytes y.bytes) = 0 then encodingTiebreak x y
  else ordInt (compare x.bytes y.bytes)

/-- `str_byte_cmp` on the strings at two addresses, locked in the order of the addresses. -/
def strByteCmp (str : Addr → StrBuf) (a b : Addr) : Int :=
  if a = b then 0
  else if a < b then lockedCmp (str a) (str b)
  else -lockedCmp (str b) (str a)

/-- `StrBuf::eq`. -/
def StrBuf.beq (x y : StrBuf) : Bool := x.bytes == y.bytes && x.hashKeyTag == y.hashKeyTag

/-- The order of some strings is one, and agrees with their equality. -/
structure OrderLaws (str : Addr → StrBuf) (strings : Set Addr) : Prop where
  antisymm : ∀ a ∈ strings, ∀ b ∈ strings, strByteCmp str a b = -strByteCmp str b a
  trans : ∀ a ∈ strings, ∀ b ∈ strings, ∀ c ∈ strings,
    strByteCmp str a b ≤ 0 → strByteCmp str b c ≤ 0 → strByteCmp str a c ≤ 0
  zero : ∀ a ∈ strings, ∀ b ∈ strings, strByteCmp str a b = 0 ↔ (str a).beq (str b) = true
  equivalence : Equivalence fun x y : StrBuf => x.beq y = true
  tag : ∀ x y : StrBuf, x.beq y = true → x.hashKeyTag = y.hashKeyTag

def StrBuf.order (x y : StrBuf) : Ordering :=
  (compare x.bytes y.bytes).then (compare x.hashKeyTag y.hashKeyTag)

instance : Std.TransCmp StrBuf.order :=
  inferInstanceAs (Std.TransCmp (compareLex (compareOn StrBuf.bytes) (compareOn StrBuf.hashKeyTag)))

theorem StrBuf.order_swap (x y : StrBuf) : x.order y = (y.order x).swap := Std.OrientedCmp.eq_swap

theorem ordInt_eq_zero {o : Ordering} : ordInt o = 0 ↔ o = .eq := by cases o <;> decide

theorem ordInt_le_zero {o : Ordering} : ordInt o ≤ 0 ↔ o.isLE = true := by cases o <;> decide

theorem ordInt_swap (o : Ordering) : ordInt o.swap = -ordInt o := by cases o <;> rfl

variable {x y : StrBuf}

theorem StrBuf.beq_iff :
    x.beq y = true ↔ x.bytes = y.bytes ∧ x.hashKeyTag = y.hashKeyTag := by
  simp [StrBuf.beq]

/-- Strings are equal where the bytes and then the tags are level. -/
theorem StrBuf.order_eq : x.order y = .eq ↔ x.beq y = true := by
  rw [StrBuf.beq_iff, StrBuf.order, Ordering.then_eq_eq, Std.compare_eq_iff_eq,
    Std.compare_eq_iff_eq]

theorem ordInt_compare (m n : Nat) : ordInt (compare m n) = ((m : Int) - n).sign := by
  rcases Nat.lt_trichotomy m n with less | rfl | more
  · rw [Nat.compare_eq_lt.mpr less, Int.sign_eq_neg_one_of_neg (by omega)]
    rfl
  · simp [ordInt]
  · rw [Nat.compare_eq_gt.mpr more, Int.sign_eq_one_of_pos (by omega)]
    rfl

/-- Strings that are alike in being seven-bit are told apart by their tags. -/
theorem encodingTiebreak_eq (alike : x.asciiOnly = y.asciiOnly) :
    encodingTiebreak x y = ordInt (compare x.hashKeyTag y.hashKeyTag) := by
  unfold encodingTiebreak StrBuf.hashKeyTag
  rw [← alike]
  cases x.asciiOnly with
  | true => simp [ordInt]
  | false =>
    by_cases same : x.enc = y.enc
    · simp [same, ordInt]
    · simp [same, ordInt_compare]

/-- Where strings with the same bytes are alike in being seven-bit, the comparison is by bytes and
then by tags. -/
theorem lockedCmp_eq (alike : x.bytes = y.bytes → x.asciiOnly = y.asciiOnly) :
    lockedCmp x y = ordInt (x.order y) := by
  unfold lockedCmp StrBuf.order
  cases bytes : compare x.bytes y.bytes with
  | eq => exact encodingTiebreak_eq (alike (Std.LawfulEqCmp.eq_of_compare bytes))
  | lt | gt => rfl

theorem strByteCmp_eq {str : Addr → StrBuf} {a b : Addr}
    (alike : (str a).bytes = (str b).bytes → (str a).asciiOnly = (str b).asciiOnly) :
    strByteCmp str a b = ordInt ((str a).order (str b)) := by
  unfold strByteCmp
  split
  · rename_i same
    rw [same, StrBuf.order_eq.mpr (StrBuf.beq_iff.mpr ⟨rfl, rfl⟩)]
    rfl
  · split
    · exact lockedCmp_eq alike
    · rw [lockedCmp_eq fun same => (alike same.symm).symm, (str a).order_swap, ordInt_swap]

theorem lockedCmp_seven (same : x.bytes = y.bytes)
    (seven : x.asciiOnly = true ∨ y.asciiOnly = true) : lockedCmp x y = 0 := by
  have level : compare x.bytes y.bytes = .eq := Std.compare_eq_iff_eq.mpr same
  unfold lockedCmp encodingTiebreak
  rw [level, if_pos (by rfl), if_pos (.inr seven)]

theorem asciiOnly_of_tag (tags : x.hashKeyTag = y.hashKeyTag) :
    x.asciiOnly = y.asciiOnly := by
  unfold StrBuf.hashKeyTag at tags
  cases isX : x.asciiOnly <;> cases isY : y.asciiOnly <;> simp [isX, isY] at tags ⊢

/-- Among any strings `<=>` is an order that agrees with `==`, an equivalence that keeps the tag,
exactly when of any two with the same bytes both or neither are seven-bit. -/
theorem strByteCmp_laws_iff (str : Addr → StrBuf) (strings : Set Addr) :
    OrderLaws str strings ↔ ∀ a ∈ strings, ∀ b ∈ strings,
      (str a).bytes = (str b).bytes → (str a).asciiOnly = (str b).asciiOnly := by
  constructor
  · intro laws a isA b isB same
    by_contra differ
    have seven : (str a).asciiOnly = true ∨ (str b).asciiOnly = true := by
      cases isSeven : (str a).asciiOnly <;> simp_all
    have level : strByteCmp str a b = 0 := by
      unfold strByteCmp
      rw [lockedCmp_seven same seven, lockedCmp_seven same.symm seven.symm]
      simp
    have tags := (StrBuf.beq_iff.mp ((laws.zero a isA b isB).mp level)).2
    exact differ (asciiOnly_of_tag tags)
  · intro alike
    have eq : ∀ a ∈ strings, ∀ b ∈ strings, strByteCmp str a b = ordInt ((str a).order (str b)) :=
      fun a isA b isB => strByteCmp_eq (alike a isA b isB)
    refine ⟨fun a isA b isB => ?_, fun a isA b isB c isC first second => ?_,
      fun a isA b isB => ?_, ⟨fun x => ?_, fun same => ?_, fun first second => ?_⟩,
      fun x y same => (StrBuf.beq_iff.mp same).2⟩
    · rw [eq a isA b isB, eq b isB a isA, (str a).order_swap, ordInt_swap]
    · rw [eq a isA b isB, ordInt_le_zero] at first
      rw [eq b isB c isC, ordInt_le_zero] at second
      rw [eq a isA c isC, ordInt_le_zero]
      exact Std.TransCmp.isLE_trans first second
    · rw [eq a isA b isB, ordInt_eq_zero, StrBuf.order_eq]
    · exact StrBuf.beq_iff.mpr ⟨rfl, rfl⟩
    · obtain ⟨bytes, tags⟩ := StrBuf.beq_iff.mp same
      exact StrBuf.beq_iff.mpr ⟨bytes.symm, tags.symm⟩
    · obtain ⟨bytes, tags⟩ := StrBuf.beq_iff.mp first
      obtain ⟨bytes', tags'⟩ := StrBuf.beq_iff.mp second
      exact StrBuf.beq_iff.mpr ⟨bytes.trans bytes', tags.trans tags'⟩

/-- `"ab"` in UTF-8 and the same bytes in UTF-16LE and in UTF-16BE. -/
def sameBytes (addr : Addr) : StrBuf :=
  ⟨[0x61, 0x62], if addr = 0 then utf8 else if addr = 1 then utf16le else utf16be⟩

/-- The first is level with the second and with the third but equal to neither, and the second is
above the third. -/
theorem sameBytes_level :
    strByteCmp sameBytes 0 1 = 0 ∧ (sameBytes 0).beq (sameBytes 1) = false ∧
      strByteCmp sameBytes 1 0 ≤ 0 ∧ strByteCmp sameBytes 0 2 ≤ 0 ∧
      ¬ strByteCmp sameBytes 1 2 ≤ 0 := by decide

end Zeo.Value
