import Mathlib.Data.List.Forall2
import Mathlib.Data.Nat.Bitwise
import Mathlib.Tactic.Ring
import Zeo.Pack.Template
import Zeo.Value.Basic

/-!
# Integer directives of `pack` and `unpack`

Sixteen letters share one routine that writes a word's low bytes and one that reads them back. What
comes back is what went in, but for the top half of the unsigned eight-byte range: the reader's
result is an `i64`, so those values come back negative.
-/

namespace Zeo.Pack

open List UInt64 Nat

open Zeo.Value (I64)

def shiftOf (big : Bool) (size i : Nat) : Nat := if big then (size - 1 - i) * 8 else i * 8

/-- `emit_int`: the bytes it pushes. -/
def emitInt (val : UInt64) (size : Nat) (big : Bool) : List UInt8 :=
  (List.range size).map fun i => (val >>> UInt64.ofNat (shiftOf big size i)).toUInt8

/-- The loop of `read_int` over the bytes. -/
def readBits (bytes : List UInt8) (big : Bool) : UInt64 :=
  bytes.zipIdx.foldl (fun val (byte, i) =>
    val ||| (byte.toUInt64 <<< UInt64.ofNat (shiftOf big bytes.length i))) 0

/-- `as i64`. -/
def asI64 (val : UInt64) : I64 :=
  if low : val.toNat < 2 ^ 63 then ⟨val.toNat, by omega⟩
  else ⟨(val.toNat : Int) - 2 ^ 64, by have := val.toNat_lt; omega⟩

def readInt (bytes : List UInt8) (big signed : Bool) : I64 :=
  let size := bytes.length
  let val := readBits bytes big
  if signed && decide (size < 8) then
    let signBit : UInt64 := 1 <<< UInt64.ofNat (size * 8 - 1)
    if val &&& signBit ≠ 0 then asI64 (val ||| ~~~((1 <<< UInt64.ofNat (size * 8)) - 1))
    else asI64 val
  else asI64 val

/-- An element of the packed list, as the integer directives see it. -/
inductive Element where
  | nil
  | int (n : I64)
  | bigInt (n : Int)
  | other (toInteger : Except String Int)

variable (n : Int)

def intValue : Element :=
  if small : -2 ^ 63 ≤ n ∧ n < 2 ^ 63 then .int ⟨n, small⟩ else .bigInt n

def isIntKind (kind : Char) : Bool :=
  ['C', 'c', 'S', 's', 'L', 'l', 'Q', 'q', 'n', 'N', 'v', 'V', 'i', 'I', 'j', 'J'].contains kind

/-- `int_size`, zero for a letter of no integer. -/
def intSize (kind : Char) (native : Bool) : Nat :=
  if ['C', 'c'].contains kind then 1
  else if ['S', 's', 'n', 'v'].contains kind then 2
  else if ['i', 'I'].contains kind then 4
  else if ['L', 'l', 'N', 'V'].contains kind then if native then 8 else 4
  else if ['Q', 'q', 'j', 'J'].contains kind then 8
  else 0

def isSigned (kind : Char) : Bool := kind.isLower && !(kind == 'n' || kind == 'v')

def numericCount (count : Count) (remaining : Nat) : Nat :=
  match count with
  | .one => 1
  | .fixed n => n
  | .star => remaining

/-- The bits of an element. The machine integer is cast, the big one masked to its low word. -/
def intBits : Element → Except String UInt64
  | .int n => .ok (UInt64.ofInt n.val)
  | .bigInt n => .ok (UInt64.ofInt n)
  | .nil => .error "no implicit conversion of nil into Integer"
  | .other (.ok n) => .ok (UInt64.ofInt n)
  | .other (.error message) => .error message

/-- `pack` under way: what is written, and the elements that are left. -/
abbrev Packing := List UInt8 × List Element

/-- The loop of `pack` over an integer directive's elements. -/
def packInts (size : Nat) (big : Bool) : Nat → Packing → Except String Packing
  | 0, s => .ok s
  | _ + 1, (_, []) => .error "too few arguments"
  | n + 1, (out, element :: rest) =>
    match intBits element with
    | .error message => .error message
    | .ok bits => packInts size big n (out ++ emitInt bits size big, rest)

/-- One directive of `pack`; the letters of no integer are `arms`. -/
def packDirective (arms : Directive → Packing → Except String Packing) (s : Packing)
    (d : Directive) : Except String Packing :=
  if isIntKind d.kind then
    packInts (intSize d.kind d.native) d.bigEndian (numericCount d.count s.2.length) s
  else arms d s

def pack (arms : Directive → Packing → Except String Packing) (elems : List Element)
    (template : List Char) : Except String (List UInt8) :=
  ((parseTemplate template).foldlM (packDirective arms) ([], elems)).map Prod.fst

/-- `unpack` under way: what is read, and the place in the bytes. -/
abbrev Unpacking := List Element × Nat

/-- The loop of `unpack` over an integer directive. -/
def unpackInts (bytes : List UInt8) (size : Nat) (big signed : Bool) : Nat → Unpacking → Unpacking
  | 0, s => s
  | n + 1, (out, pos) =>
    if pos + size > bytes.length then unpackInts bytes size big signed n (out ++ [.nil], pos)
    else
      let v := readInt ((bytes.drop pos).take size) big signed
      unpackInts bytes size big signed n (out ++ [.int v], pos + size)

/-- One directive of `unpack`; the letters of no integer are `arms`. -/
def unpackDirective (arms : Directive → Unpacking → Except String Unpacking) (bytes : List UInt8)
    (s : Unpacking) (d : Directive) : Except String Unpacking :=
  if isIntKind d.kind then
    let size := intSize d.kind d.native
    let avail := (bytes.length - s.2) / size
    .ok (unpackInts bytes size d.bigEndian (isSigned d.kind) (numericCount d.count avail) s)
  else arms d s

def unpack (arms : Directive → Unpacking → Except String Unpacking) (bytes : List UInt8)
    (template : List Char) : Except String (List Element) :=
  ((parseTemplate template).foldlM (unpackDirective arms bytes) ([], 0)).map Prod.fst

variable (val : UInt64)

@[simp] theorem emitInt_length (size : Nat) (big : Bool) :
    (emitInt val size big).length = size := by
  simp [emitInt]

theorem testBit_foldl_or {α : Type} (items : List α) (term : α → UInt64) (start : UInt64)
    (j : Nat) :
    (items.foldl (fun val item => val ||| term item) start).toNat.testBit j =
      (start.toNat.testBit j || items.any fun item => (term item).toNat.testBit j) := by
  induction items generalizing start with
  | nil => simp
  | cons item items ih =>
    rw [foldl_cons, ih, UInt64.toNat_or, testBit_or, any_cons, Bool.or_assoc]

/-- A byte of a word, put back in its place, has the word's bits there and no others. -/
theorem testBit_byte {shift : Nat} (j : Nat) (fits : shift + 8 ≤ 64) :
    ((val >>> UInt64.ofNat shift).toUInt8.toUInt64 <<< UInt64.ofNat shift).toNat.testBit j =
      (decide (shift ≤ j ∧ j < shift + 8) && val.toNat.testBit j) := by
  have small : (UInt64.ofNat shift).toNat % 64 = shift := by
    rw [UInt64.toNat_ofNat']
    omega
  rw [UInt64.toNat_shiftLeft, UInt8.toNat_toUInt64, UInt64.toNat_toUInt8, UInt64.toNat_shiftRight,
    small, testBit_mod_two_pow, testBit_shiftLeft, testBit_mod_two_pow]
  by_cases inside : shift ≤ j ∧ j < shift + 8
  · simp [inside, show j < 64 by omega, show j - shift < 8 by omega]
  · by_cases below : j < shift
    · simp [show ¬ shift ≤ j by omega]
    · simp [inside, show ¬ j - shift < 8 by omega]

theorem exists_shiftOf (big : Bool) (size j : Nat) :
    (∃ i ∈ List.range size, shiftOf big size i ≤ j ∧ j < shiftOf big size i + 8) ↔
      j < 8 * size := by
  unfold shiftOf
  constructor
  · rintro ⟨i, mem, place⟩
    rw [mem_range] at mem
    split at place <;> omega
  · intro low
    cases big with
    | false =>
      refine ⟨j / 8, mem_range.mpr (by omega), ?_⟩
      rw [if_neg Bool.false_ne_true]
      omega
    | true =>
      refine ⟨size - 1 - j / 8, mem_range.mpr (by omega), ?_⟩
      rw [if_pos rfl]
      omega

theorem zipIdx_map_range {α : Type} (f : Nat → α) (count : Nat) :
    ((List.range count).map f).zipIdx = (List.range count).map fun i => (f i, i) := by
  apply ext_getElem <;> simp

/-- What comes back of a word are its low bytes, in either order. -/
theorem readBits_emitInt {size : Nat} (big : Bool) (fits : size ≤ 8) :
    (readBits (emitInt val size big) big).toNat = val.toNat % 2 ^ (8 * size) := by
  have loop : readBits (emitInt val size big) big = (List.range size).foldl (fun acc i =>
      acc ||| ((val >>> UInt64.ofNat (shiftOf big size i)).toUInt8.toUInt64 <<<
        UInt64.ofNat (shiftOf big size i))) 0 := by
    unfold readBits
    rw [emitInt_length]
    unfold emitInt
    rw [zipIdx_map_range, foldl_map]
  have within : ∀ i ∈ List.range size, shiftOf big size i + 8 ≤ 64 := by
    intro i mem
    rw [mem_range] at mem
    unfold shiftOf
    split <;> omega
  apply eq_of_testBit_eq
  intro j
  rw [loop, testBit_foldl_or, testBit_mod_two_pow, Bool.eq_iff_iff]
  simp only [UInt64.toNat_zero, zero_testBit, Bool.false_or, any_eq_true,
    Bool.and_eq_true, decide_eq_true_eq, ← exists_shiftOf big size j]
  constructor
  · rintro ⟨i, mem, bit⟩
    rw [testBit_byte val j (within i mem), Bool.and_eq_true, decide_eq_true_eq] at bit
    exact ⟨⟨i, mem, bit.1⟩, bit.2⟩
  · rintro ⟨⟨i, mem, place⟩, bit⟩
    refine ⟨i, mem, ?_⟩
    rw [testBit_byte val j (within i mem), bit, decide_eq_true place]
    rfl

theorem toNat_ofInt : ((ofInt n).toNat : Int) = n % 2 ^ 64 := by
  have range := Int.emod_nonneg n (by decide : (2 : Int) ^ 64 ≠ 0)
  have cast : ((n % 2 ^ 64).toNat : Int) = n % 2 ^ 64 := Int.toNat_of_nonneg range
  unfold ofInt
  rw [toNat_ofNat', mod_eq_of_lt (by omega), cast]

theorem readBits_ofInt {size : Nat} (big : Bool) (fits : size ≤ 8) :
    ((readBits (emitInt (ofInt n) size big) big).toNat : Int) = n % 2 ^ (8 * size) := by
  rw [readBits_emitInt _ _ fits, Int.natCast_mod, toNat_ofInt]
  exact Int.emod_emod_of_dvd n (pow_dvd_pow 2 (by omega))

theorem asI64_val :
    (asI64 val).val = if val.toNat < 2 ^ 63 then (val.toNat : Int) else val.toNat - 2 ^ 64 := by
  unfold asI64
  split <;> rfl

theorem toNat_one_shift {k : Nat} (small : k < 64) :
    ((1 : UInt64) <<< UInt64.ofNat k).toNat = 2 ^ k := by
  have amount : (ofNat k).toNat % 64 = k := by
    rw [toNat_ofNat']
    omega
  rw [UInt64.toNat_shiftLeft, amount, UInt64.toNat_one, Nat.one_shiftLeft,
    Nat.mod_eq_of_lt (Nat.pow_lt_pow_right (by decide) small)]

theorem signBit_iff {k : Nat} (small : k + 1 < 64) (bound : val.toNat < 2 ^ (k + 1)) :
    val &&& (1 <<< UInt64.ofNat k) ≠ 0 ↔ 2 ^ k ≤ val.toNat := by
  rw [Ne, ← UInt64.toNat_inj, UInt64.toNat_and, toNat_one_shift (by omega), and_two_pow]
  by_cases high : 2 ^ k ≤ val.toNat
  · have set : val.toNat.testBit k = true :=
      testBit_of_two_pow_le_and_two_pow_add_one_gt high bound
    simp [set, high]
  · have clear : val.toNat.testBit k = false := testBit_lt_two_pow (by omega)
    simp [clear, high]

/-- A word with every bit set above its low ones. -/
theorem signExtend_toNat {k : Nat} (small : k < 64) (bound : val.toNat < 2 ^ k) :
    (val ||| ~~~((1 <<< UInt64.ofNat k) - 1)).toNat = val.toNat + (2 ^ 64 - 2 ^ k) := by
  have power := toNat_one_shift small
  have positive : 0 < 2 ^ k := Nat.two_pow_pos k
  have one : (1 : UInt64) ≤ 1 <<< ofNat k := by
    rw [le_iff_toNat_le, power]
    exact positive
  have whole : 2 ^ 64 = 2 ^ k * 2 ^ (64 - k) := by
    rw [← pow_add]
    congr 1
    omega
  have mask : (~~~((1 <<< ofNat k) - 1 : UInt64)).toNat = 2 ^ k * (2 ^ (64 - k) - 1) := by
    rw [UInt64.toNat_not, UInt64.toNat_sub_of_le _ _ one, power, Nat.mul_sub, ← whole, Nat.mul_one]
    change 2 ^ 64 - 1 - (2 ^ k - 1) = 2 ^ 64 - 2 ^ k
    omega
  rw [UInt64.toNat_or, mask, Nat.or_comm, ← Nat.two_pow_add_eq_or_of_lt bound, Nat.mul_sub,
    ← whole, Nat.mul_one, Nat.add_comm]

theorem readInt_unsigned {n : Int} {size : Nat} (big : Bool) (fits : size ≤ 8)
    (range : 0 ≤ n ∧ n < 2 ^ (8 * size)) :
    (readInt (emitInt (ofInt n) size big) big false).val =
      if n < 2 ^ 63 then n else n - 2 ^ 64 := by
  have val := readBits_ofInt n big fits
  rw [Int.emod_eq_of_lt range.1 range.2] at val
  change (asI64 (readBits (emitInt (ofInt n) size big) big)).val = _
  rw [asI64_val]
  split <;> split <;> omega

theorem readInt_signed {n : Int} {size : Nat} (big : Bool) (nonempty : 0 < size) (fits : size ≤ 8)
    (range : -2 ^ (8 * size - 1) ≤ n ∧ n < 2 ^ (8 * size - 1)) :
    (readInt (emitInt (ofInt n) size big) big true).val = n := by
  obtain ⟨k, bits⟩ : ∃ k, 8 * size = k + 1 := ⟨8 * size - 1, by omega⟩
  have val := readBits_ofInt n big fits
  rw [bits, Nat.add_sub_cancel] at range
  rw [bits] at val
  have reading : ((readBits (emitInt (ofInt n) size big) big).toNat : Int) =
      if 0 ≤ n then n else n + 2 ^ (k + 1) := by
    rw [val]
    split
    · exact Int.emod_eq_of_lt (by omega) (by omega)
    · rw [← Int.add_emod_right, Int.emod_eq_of_lt (by omega) (by omega)]
  generalize word : readBits (emitInt (ofInt n) size big) big = w at reading
  have powers : ((2 ^ k : Nat) : Int) = 2 ^ k := by norm_cast
  unfold readInt
  dsimp only
  rw [emitInt_length, word, Bool.true_and]
  by_cases short : size < 8
  · rw [if_pos (decide_eq_true short), show size * 8 - 1 = k by omega,
      show size * 8 = k + 1 by omega]
    have bound : w.toNat < 2 ^ (k + 1) := by
      split at reading <;> omega
    have small : 2 ^ (k + 1) ≤ 2 ^ 56 := Nat.pow_le_pow_right (by decide) (by omega)
    by_cases negative : 0 ≤ n
    · rw [if_pos negative] at reading
      rw [if_neg (by rw [signBit_iff w (by omega) bound]; omega), asI64_val, reading,
        if_pos (by omega)]
    · rw [if_pos (by rw [signBit_iff w (by omega) bound]; omega), asI64_val,
        signExtend_toNat w (by omega) bound]
      omega
  · have whole : k = 63 := by omega
    subst whole
    rw [if_neg (by simpa using short), asI64_val]
    split at reading <;> split <;> omega

def Directive.size (d : Directive) : Nat := intSize d.kind d.native

def slots (ds : List Directive) : List Directive :=
  ds.flatMap fun d => List.replicate (numericCount d.count 0) d

def InRange (d : Directive) : Prop :=
  if isSigned d.kind then -2 ^ (8 * d.size - 1) ≤ n ∧ n < 2 ^ (8 * d.size - 1)
  else 0 ≤ n ∧ n < 2 ^ (8 * d.size)

instance (n : Int) (d : Directive) : Decidable (InRange n d) :=
  inferInstanceAs (Decidable (if isSigned d.kind then
    -2 ^ (8 * d.size - 1) ≤ n ∧ n < 2 ^ (8 * d.size - 1) else 0 ≤ n ∧ n < 2 ^ (8 * d.size)))

def word (d : Directive) (n : Int) : List UInt8 :=
  emitInt (UInt64.ofInt n) d.size d.bigEndian

/-- What is read of an integer's bytes under a directive. -/
def reread (d : Directive) : Element :=
  .int (readInt (word d n) d.bigEndian (isSigned d.kind))

variable {d : Directive}

theorem size_range (kind : isIntKind d.kind = true) :
    0 < d.size ∧ d.size ≤ 8 := by
  have table : ∀ native, (['C', 'c', 'S', 's', 'L', 'l', 'Q', 'q', 'n', 'N', 'v', 'V', 'i', 'I', 'j',
      'J'].all fun c => decide (0 < intSize c native ∧ intSize c native ≤ 8)) = true := by decide
  exact of_decide_eq_true
    (all_eq_true.mp (table d.native) d.kind (contains_iff_mem.mp kind))

/-- The bits of an integer are its low word, machine integer or not. -/
theorem intBits_intValue : intBits (intValue n) = .ok (ofInt n) := by
  unfold intValue
  split <;> rfl

/-- An integer in range comes back under its directive, but for the unsigned ones past the machine
integers. -/
theorem reread_eq_iff {n : Int} (kind : isIntKind d.kind = true) (range : InRange n d) :
    reread n d = intValue n ↔ (isSigned d.kind = false → n < 2 ^ 63) := by
  obtain ⟨nonempty, fits⟩ := size_range kind
  unfold reread word InRange at *
  cases sign : isSigned d.kind with
  | true =>
    rw [sign] at range
    have back := readInt_signed d.bigEndian nonempty fits range
    have small := (readInt (emitInt (ofInt n) d.size d.bigEndian) d.bigEndian true).property
    rw [back] at small
    refine ⟨fun _ => nofun, fun _ => ?_⟩
    unfold intValue
    rw [dif_pos small]
    exact congrArg Element.int (Subtype.ext back)
  | false =>
    rw [sign, if_neg Bool.false_ne_true] at range
    have back := readInt_unsigned d.bigEndian fits range
    unfold intValue
    by_cases low : n < 2 ^ 63
    · rw [if_pos low] at back
      rw [dif_pos ⟨by omega, low⟩]
      exact ⟨fun _ _ => low, fun _ => congrArg Element.int (Subtype.ext back)⟩
    · rw [dif_neg fun both => low both.2]
      exact ⟨nofun, fun clear => absurd (clear rfl) low⟩

theorem packInts_values (d : Directive) (values : List Int) (out : List UInt8)
    (rest : List Element) :
    packInts d.size d.bigEndian values.length (out, values.map intValue ++ rest) =
      .ok (out ++ values.flatMap (word d), rest) := by
  induction values generalizing out with
  | nil => simp [packInts]
  | cons n values ih =>
    rw [length_cons, map_cons, cons_append, packInts, intBits_intValue]
    dsimp only
    rw [ih, append_assoc]
    rfl

/-- One integer directive of `unpack`, at its own bytes. -/
theorem unpackInts_values (d : Directive) (values : List Int) (out : List Element)
    (before after : List UInt8) :
    unpackInts (before ++ values.flatMap (word d) ++ after) d.size d.bigEndian (isSigned d.kind)
      values.length (out, before.length) =
      (out ++ values.map (reread · d), (before ++ values.flatMap (word d)).length) := by
  induction values generalizing out before with
  | nil => simp [unpackInts]
  | cons n values ih =>
    have length : (word d n).length = d.size := emitInt_length _ _ _
    have split : before ++ (n :: values).flatMap (word d) ++ after =
        before ++ word d n ++ values.flatMap (word d) ++ after := by
      simp only [flatMap_cons, append_assoc]
    have inside : ¬ before.length + d.size >
        (before ++ word d n ++ values.flatMap (word d) ++ after).length := by
      simp only [length_append]
      omega
    have here : ((before ++ word d n ++ values.flatMap (word d) ++ after).drop before.length).take
        d.size = word d n := by
      rw [append_assoc, append_assoc, drop_left, ← length, take_left]
    rw [length_cons, split, unpackInts, if_neg inside, here]
    have place : before.length + d.size = (before ++ word d n).length := by
      rw [length_append, length]
    rw [place, ih]
    simp only [append_assoc]
    rfl

def IntegersOnly (ds : List Directive) : Prop :=
  ∀ d ∈ ds, isIntKind d.kind = true ∧ d.count ≠ .star

theorem numericCount_counted {count : Count} (counted : count ≠ .star) (remaining : Nat) :
    numericCount count remaining = numericCount count 0 := by
  cases count with
  | star => exact absurd rfl counted
  | one | fixed n => rfl

theorem forall_slots_cons {ds : List Directive} {values : List Int}
    (fits : List.Forall₂ InRange values (slots (d :: ds))) :
    ∃ first rest, values = first ++ rest ∧ first.length = numericCount d.count 0 ∧
      List.Forall₂ InRange rest (slots ds) := by
  have split : slots (d :: ds) = List.replicate (numericCount d.count 0) d ++ slots ds := rfl
  rw [split] at fits
  refine ⟨values.take (numericCount d.count 0), values.drop (numericCount d.count 0),
    (take_append_drop _ _).symm, ?_, ?_⟩
  · have length := fits.length_eq
    rw [length_append, length_replicate] at length
    rw [length_take]
    omega
  · have rest := forall₂_drop_append values _ _ fits
    rwa [length_replicate] at rest

theorem zipWith_replicate_length (d : Directive) (values : List Int) :
    List.zipWith reread values (List.replicate values.length d) = values.map (reread · d) := by
  induction values with
  | nil => rfl
  | cons n values ih =>
    rw [length_cons, replicate_succ, zipWith_cons_cons, ih, map_cons]

/-- `pack` of integers in a row writes their words, and `unpack` reads each of them again, whatever
is in front and behind. -/
theorem pack_unpack_words (packArms : Directive → Packing → Except String Packing)
    (unpackArms : Directive → Unpacking → Except String Unpacking) (ds : List Directive)
    (integers : IntegersOnly ds) (values : List Int)
    (fits : List.Forall₂ InRange values (slots ds)) :
    ∃ bytes,
      (∀ out, ds.foldlM (packDirective packArms) (out, values.map intValue) =
        .ok (out ++ bytes, [])) ∧
      ∀ out before after,
        ds.foldlM (unpackDirective unpackArms (before ++ bytes ++ after)) (out, before.length) =
          .ok (out ++ List.zipWith reread values (slots ds), (before ++ bytes).length) := by
  induction ds generalizing values with
  | nil =>
    cases fits
    refine ⟨[], fun out => ?_, fun out before after => ?_⟩
    · rw [append_nil]
      rfl
    · rw [append_nil]
      exact congrArg Except.ok (Prod.ext (append_nil out).symm rfl)
  | cons d ds ih =>
    obtain ⟨kind, counted⟩ := integers d mem_cons_self
    obtain ⟨first, rest, rfl, count, restFits⟩ := forall_slots_cons fits
    obtain ⟨bytes, packs, unpacks⟩ :=
      ih (fun other mem => integers other (mem_cons_of_mem d mem)) rest restFits
    refine ⟨first.flatMap (word d) ++ bytes, fun out => ?_, fun out before after => ?_⟩
    · have step : packDirective packArms (out, (first ++ rest).map intValue) d =
          .ok (out ++ first.flatMap (word d), rest.map intValue) := by
        unfold packDirective
        rw [if_pos kind, numericCount_counted counted, ← count, map_append]
        exact packInts_values d first out (rest.map intValue)
      rw [foldlM_cons, step]
      change ds.foldlM (packDirective packArms) _ = _
      rw [packs, append_assoc]
    · have bytesSplit : before ++ (first.flatMap (word d) ++ bytes) ++ after =
          before ++ first.flatMap (word d) ++ (bytes ++ after) := by
        simp only [append_assoc]
      have restSplit : before ++ first.flatMap (word d) ++ (bytes ++ after) =
          before ++ first.flatMap (word d) ++ bytes ++ after := by
        simp only [append_assoc]
      have step : unpackDirective unpackArms (before ++ first.flatMap (word d) ++ (bytes ++ after))
          (out, before.length) d = .ok (out ++ first.map (reread · d),
            (before ++ first.flatMap (word d)).length) := by
        unfold unpackDirective
        rw [if_pos kind]
        dsimp only
        rw [numericCount_counted counted, ← count]
        exact congrArg Except.ok (unpackInts_values d first out before (bytes ++ after))
      have same : List.zipWith reread (first ++ rest) (slots (d :: ds)) =
          first.map (reread · d) ++ List.zipWith reread rest (slots ds) := by
        change List.zipWith reread (first ++ rest)
          (List.replicate (numericCount d.count 0) d ++ slots ds) = _
        rw [zipWith_append (by rw [length_replicate, count]), ← count]
        rw [zipWith_replicate_length]
      rw [bytesSplit, foldlM_cons, step]
      change ds.foldlM (unpackDirective unpackArms _) _ = _
      rw [restSplit, unpacks, same, append_assoc, append_assoc]

/-- Words in a row come back as they went in exactly when each of them does. -/
theorem zipWith_reread_iff {values : List Int} {row : List Directive}
    (fits : List.Forall₂ InRange values row) (integers : ∀ d ∈ row, isIntKind d.kind = true) :
    List.zipWith reread values row = values.map intValue ↔
      ∀ pair ∈ values.zip row, isSigned pair.2.kind = false → pair.1 < 2 ^ 63 := by
  induction fits with
  | nil => simp
  | @cons n d values row range fits ih =>
    rw [zipWith_cons_cons, map_cons, List.cons.injEq, zip_cons_cons,
      forall_mem_cons, reread_eq_iff (integers d mem_cons_self) range,
      ih fun other mem => integers other (mem_cons_of_mem d mem)]

/-- Integers in range of their directives are packed, and come back from `unpack` exactly when no
unsigned directive has one past the machine integers. -/
theorem unpack_pack_iff (packArms : Directive → Packing → Except String Packing)
    (unpackArms : Directive → Unpacking → Except String Unpacking) (template : List Char)
    (integers : IntegersOnly (parseTemplate template)) (values : List Int)
    (fits : List.Forall₂ InRange values (slots (parseTemplate template))) :
    ∃ bytes, pack packArms (values.map intValue) template = .ok bytes ∧
      (unpack unpackArms bytes template = .ok (values.map intValue) ↔
        ∀ pair ∈ values.zip (slots (parseTemplate template)),
          isSigned pair.2.kind = false → pair.1 < 2 ^ 63) := by
  obtain ⟨bytes, packs, unpacks⟩ :=
    pack_unpack_words packArms unpackArms (parseTemplate template) integers values fits
  have packed : pack packArms (values.map intValue) template = .ok bytes := by
    unfold pack
    rw [packs []]
    rfl
  have read := unpacks [] [] []
  rw [nil_append, append_nil] at read
  have unpacked : unpack unpackArms bytes template =
      .ok (List.zipWith reread values (slots (parseTemplate template))) := by
    change Except.map Prod.fst (List.foldlM _ ([], ([] : List UInt8).length) _) = _
    rw [read]
    rfl
  have rowIntegers : ∀ d ∈ slots (parseTemplate template), isIntKind d.kind = true := by
    intro d member
    obtain ⟨source, inside, repeated⟩ := mem_flatMap.mp member
    rw [eq_of_mem_replicate repeated]
    exact (integers source inside).1
  refine ⟨bytes, packed, ?_⟩
  rw [unpacked, Except.ok.injEq, zipWith_reread_iff fits rowIntegers]

/-- The last arm of `pack`, for every letter of no integer. -/
def unsupported (d : Directive) (_ : Packing) : Except String Packing :=
  .error s!"unsupported pack directive: {d.kind}"

/-- The last arm of `unpack`, for every letter of no integer. -/
def unknown (template : String) (d : Directive) (_ : Unpacking) : Except String Unpacking :=
  .error s!"unknown unpack directive '{d.kind}' in '{template}'"

/-- `[2**63].pack("Q").unpack("Q")` is `[-2**63]`. -/
theorem unpack_pack_top_half :
    InRange (2 ^ 63) ⟨'Q', .one, false, false⟩ ∧
      parseTemplate ['Q'] = [⟨'Q', .one, false, false⟩] ∧
      pack unsupported [intValue (2 ^ 63)] ['Q'] = .ok [0, 0, 0, 0, 0, 0, 0, 0x80] ∧
      unpack (unknown "Q") [0, 0, 0, 0, 0, 0, 0, 0x80] ['Q'] =
        .ok [.int ⟨-2 ^ 63, by decide⟩] :=
  ⟨by decide, rfl, rfl, rfl⟩

/-- `[1, -2, 258].pack("CcN")` comes back. -/
theorem unpack_pack_iff_small :
    ∃ bytes, pack unsupported ([1, -2, 258].map intValue) ['C', 'c', 'N'] = .ok bytes ∧
      unpack (unknown "CcN") bytes ['C', 'c', 'N'] = .ok ([1, -2, 258].map intValue) := by
  have integers : IntegersOnly (parseTemplate ['C', 'c', 'N']) := by
    unfold IntegersOnly
    decide
  have fits : List.Forall₂ InRange [1, -2, 258] (slots (parseTemplate ['C', 'c', 'N'])) := by
    refine .cons ?_ (.cons ?_ (.cons ?_ .nil)) <;> decide
  obtain ⟨bytes, packed, back⟩ :=
    unpack_pack_iff unsupported (unknown "CcN") ['C', 'c', 'N'] integers [1, -2, 258] fits
  exact ⟨bytes, packed, back.mpr (by decide)⟩

end Zeo.Pack
