import Zeo.Pack.Integers

/-!
# BER-compressed integers

The letter `w` writes an integer in groups of seven bits, the highest first, and marks every group
but the last. The loops work on words, and the element behind a group is narrowed to an `i64` before
that: an integer outside the range becomes zero.
-/

namespace Zeo.Pack

open List

/-- `to_i64().unwrap_or(0)`. -/
def narrow (n : Int) : Int := if -2 ^ 63 ≤ n ∧ n < 2 ^ 63 then n else 0

/-- `next_int`, of the next element. -/
def nextInt : Element → Except String Int
  | .int n => .ok n.val
  | .bigInt n => .ok (narrow n)
  | .nil => .error "no implicit conversion of nil into Integer"
  | .other (.ok n) => .ok (narrow n)
  | .other (.error message) => .error message

theorem shift_lt {val : UInt64} (more : val ≠ 0) : (val >>> 7).toNat < val.toNat := by
  have positive : val.toNat ≠ 0 := fun zero => more (UInt64.toNat_inj.mp zero)
  rw [UInt64.toNat_shiftRight]
  change val.toNat >>> 7 < val.toNat
  rw [Nat.shiftRight_eq_div_pow]
  omega

/-- The loop of `emit_ber`: the groups it pushes. -/
def berGroups (val : UInt64) : List UInt8 :=
  if val = 0 then [] else ((val &&& 0x7f).toUInt8 ||| 0x80) :: berGroups (val >>> 7)
termination_by val.toNat
decreasing_by exact shift_lt ‹¬ val = 0›

/-- `emit_ber`: the bytes it pushes. -/
def emitBer (val : UInt64) : List UInt8 :=
  ((val &&& 0x7f).toUInt8 :: berGroups (val >>> 7)).reverse

/-- The loop of `read_ber`. -/
def readBerFrom (val : UInt64) (used : Nat) : List UInt8 → UInt64 × Nat
  | [] => (val, used)
  | b :: bytes =>
    let val := (val <<< 7) ||| (b &&& 0x7f).toUInt64
    if b &&& 0x80 = 0 then (val, used + 1) else readBerFrom val (used + 1) bytes

def readBer (bytes : List UInt8) : UInt64 × Nat := readBerFrom 0 0 bytes

/-- The loop of `pack` over the elements of `w`. -/
def packBers : Nat → Packing → Except String Packing
  | 0, s => .ok s
  | _ + 1, (_, []) => .error "too few arguments"
  | n + 1, (out, element :: rest) =>
    match nextInt element with
    | .error message => .error message
    | .ok v =>
      if v < 0 then .error "can't compress negative numbers"
      else packBers n (out ++ emitBer (UInt64.ofInt v), rest)

/-- The letter `w` of `pack`; the others are `arms`. -/
def packBer (arms : Directive → Packing → Except String Packing) (d : Directive) (s : Packing) :
    Except String Packing :=
  if d.kind = 'w' then packBers (numericCount d.count s.2.length) s else arms d s

/-- The loop of `unpack` over `w`. -/
def unpackBers (bytes : List UInt8) : Nat → Unpacking → Unpacking
  | 0, s => s
  | n + 1, (out, pos) =>
    if pos ≥ bytes.length then (out, pos)
    else
      let (val, used) := readBer (bytes.drop pos)
      unpackBers bytes n (out ++ [intValue val.toNat], pos + used)

/-- `usize::MAX`. -/
def usizeMax : Nat := 2 ^ 64 - 1

/-- The letter `w` of `unpack`; the others are `arms`. -/
def unpackBer (arms : Directive → Unpacking → Except String Unpacking) (bytes : List UInt8)
    (d : Directive) (s : Unpacking) : Except String Unpacking :=
  if d.kind = 'w' then .ok (unpackBers bytes (numericCount d.count usizeMax) s) else arms d s

theorem low_group (val : UInt64) : ((val &&& 0x7f).toUInt8).toNat = val.toNat % 128 := by
  rw [UInt64.toNat_toUInt8, UInt64.toNat_and]
  change (val.toNat &&& 2 ^ 7 - 1) % 2 ^ 8 = _
  rw [Nat.and_two_pow_sub_one_eq_mod]
  omega

theorem group_back {val : UInt64} {b : UInt8} (group : b.toNat % 128 = val.toNat % 128) :
    (val >>> 7) <<< 7 ||| (b &&& 0x7f).toUInt64 = val := by
  apply UInt64.toNat_inj.mp
  have low : (b &&& 0x7f).toNat = val.toNat % 128 := by
    rw [UInt8.toNat_and, ← group]
    exact Nat.and_two_pow_sub_one_eq_mod b.toNat 7
  have high : ((val >>> 7) <<< 7).toNat = 2 ^ 7 * (val.toNat / 128) := by
    rw [UInt64.toNat_shiftLeft, UInt64.toNat_shiftRight]
    change (val.toNat >>> 7) <<< 7 % 2 ^ 64 = _
    rw [Nat.shiftRight_eq_div_pow, Nat.shiftLeft_eq]
    have := val.toNat_lt
    omega
  rw [UInt64.toNat_or, UInt8.toNat_toUInt64, low, high,
    ← Nat.two_pow_add_eq_or_of_lt (Nat.mod_lt _ (by decide))]
  omega

theorem mark_eq_zero_iff (b : UInt8) : b &&& 0x80 = 0 ↔ b.toNat < 128 := by
  have table : ∀ n : Fin 256, n.val &&& 128 = 0 ↔ n.val < 128 := by decide +kernel
  rw [← UInt8.toNat_inj, UInt8.toNat_and]
  exact table ⟨b.toNat, b.toNat_lt⟩

theorem readBerFrom_groups (val : UInt64) (used : Nat) (rest : List UInt8) :
    readBerFrom 0 used ((berGroups val).reverse ++ rest) =
      readBerFrom val (used + (berGroups val).length) rest := by
  induction val using berGroups.induct generalizing rest with
  | case1 => simp [berGroups]
  | case2 val more ih =>
    have marked : ((val &&& 0x7f).toUInt8 ||| 0x80).toNat = 128 + val.toNat % 128 := by
      rw [UInt8.toNat_or, low_group, Nat.or_comm]
      exact (Nat.two_pow_add_eq_or_of_lt (i := 7) (Nat.mod_lt _ (by decide)) 1).symm
    rw [berGroups, if_neg more, reverse_cons, append_assoc, ih, singleton_append,
      readBerFrom, if_neg (by rw [mark_eq_zero_iff]; omega), group_back (by omega)]
    rw [length_cons, Nat.add_assoc]

theorem readBer_emitBer (val : UInt64) (rest : List UInt8) :
    readBer (emitBer val ++ rest) = (val, (emitBer val).length) := by
  have last := low_group val
  unfold readBer emitBer
  rw [reverse_cons, append_assoc, readBerFrom_groups, singleton_append,
    readBerFrom, if_pos (by rw [mark_eq_zero_iff]; omega), group_back (by omega)]
  simp

theorem nextInt_intValue (n : Int) : nextInt (intValue n) = .ok (narrow n) := by
  unfold intValue
  split
  · next small => rw [nextInt, narrow, if_pos small]
  · rfl

def berBytes (n : Int) : List UInt8 := emitBer (UInt64.ofInt (narrow n))

/-- `pack` writes the narrowed integers unless one of them is negative. -/
theorem packBers_eq (ns : List Int) (out : List UInt8) :
    packBers ns.length (out, ns.map intValue) =
      if ∀ n ∈ ns, 0 ≤ narrow n then .ok (out ++ ns.flatMap berBytes, [])
      else .error "can't compress negative numbers" := by
  induction ns generalizing out with
  | nil => simp [packBers]
  | cons n ns ih =>
    rw [length_cons, map_cons, packBers, nextInt_intValue]
    dsimp only
    by_cases negative : narrow n < 0
    · rw [if_pos negative, if_neg fun all => absurd (all n mem_cons_self) (by omega)]
    · rw [if_neg negative, ih, flatMap_cons, ← append_assoc]
      have first : 0 ≤ narrow n := by omega
      simp only [forall_mem_cons, first, true_and]
      rfl

theorem unpackBers_eq {vals : List UInt64} {count : Nat} (enough : vals.length ≤ count)
    (out : List Element) (before : List UInt8) :
    unpackBers (before ++ vals.flatMap emitBer) count (out, before.length) =
      (out ++ vals.map (intValue ·.toNat), (before ++ vals.flatMap emitBer).length) := by
  induction vals generalizing count out before with
  | nil => cases count <;> simp [unpackBers]
  | cons val vals ih =>
    obtain ⟨count, rfl⟩ : ∃ less, count = less + 1 := ⟨count - 1, by simp at enough; omega⟩
    have some : 0 < (emitBer val).length := by simp [emitBer]
    have later := ih (Nat.le_of_succ_le_succ enough) (out ++ [intValue val.toNat])
      (before ++ emitBer val)
    rw [flatMap_cons, unpackBers, if_neg (by simp only [length_append]; omega),
      drop_left, readBer_emitBer]
    dsimp only
    rw [← append_assoc, ← length_append, later]
    simp

/-- What `w*` promises for a list of integers: one without a negative integer comes back, and one
with a negative integer is refused. -/
structure BerKept (packArms : Directive → Packing → Except String Packing)
    (unpackArms : Directive → Unpacking → Except String Unpacking) (ns : List Int) : Prop where
  returns : (∀ n ∈ ns, 0 ≤ n) → ∃ bytes,
    pack (packBer packArms) (ns.map intValue) ['w', '*'] = .ok bytes ∧
      unpack (unpackBer unpackArms bytes) bytes ['w', '*'] = .ok (ns.map intValue)
  refuses : (∃ n ∈ ns, n < 0) → ∃ message,
    pack (packBer packArms) (ns.map intValue) ['w', '*'] = .error message

/-- The machine's range is enough for a list of integers. -/
structure BerFits (ns : List Int) : Prop where
  small : (∀ n ∈ ns, 0 ≤ n) → ∀ n ∈ ns, n < 2 ^ 63
  seen : (∃ n ∈ ns, n < 0) → ∃ n ∈ ns, -2 ^ 63 ≤ n ∧ n < 0

variable (packArms : Directive → Packing → Except String Packing)
  (unpackArms : Directive → Unpacking → Except String Unpacking) (ns : List Int)

theorem pack_star : pack (packBer packArms) (ns.map intValue) ['w', '*'] =
    if ∀ n ∈ ns, 0 ≤ narrow n then .ok (ns.flatMap berBytes)
    else .error "can't compress negative numbers" := by
  have parsed : parseTemplate ['w', '*'] = [⟨'w', .star, false, false⟩] := rfl
  have ran := packBers_eq ns []
  unfold pack
  rw [parsed]
  change Except.map _ ((packBers (ns.map intValue).length ([], ns.map intValue)).bind _) = _
  rw [length_map, ran]
  split <;> rfl

theorem unpack_star (fits : ns.length < 2 ^ 64) (unsigned : ∀ n ∈ ns, 0 ≤ narrow n) :
    unpack (unpackBer unpackArms (ns.flatMap berBytes)) (ns.flatMap berBytes) ['w', '*'] =
      .ok (ns.map fun n => intValue (narrow n)) := by
  have parsed : parseTemplate ['w', '*'] = [⟨'w', .star, false, false⟩] := rfl
  have words : ns.flatMap berBytes = (ns.map fun n => UInt64.ofInt (narrow n)).flatMap emitBer := by
    rw [flatMap_map]
    rfl
  have enough : (ns.map fun n => UInt64.ofInt (narrow n)).length ≤ usizeMax := by
    rw [length_map]
    unfold usizeMax
    omega
  have back : ∀ n ∈ ns, ((UInt64.ofInt (narrow n)).toNat : Int) = narrow n := by
    intro n mem
    have range := unsigned n mem
    rw [toNat_ofInt, Int.emod_eq_of_lt range (by unfold narrow; split <;> omega)]
  have ran := unpackBers_eq enough [] []
  rw [← words, nil_append, nil_append, length_nil, map_map] at ran
  unfold unpack
  rw [parsed]
  change Except.map _ (.ok (unpackBers (ns.flatMap berBytes) usizeMax ([], 0))) = _
  rw [ran, Except.map]
  rw [Except.ok.injEq]
  refine map_congr_left fun n mem => ?_
  rw [Function.comp_apply, back n mem]

theorem intValue_injective : Function.Injective intValue := by
  intro a b same
  unfold intValue at same
  split at same <;> split at same
  · injection same with same
    injection same
  · cases same
  · cases same
  · injection same

/-- Integers of `w*` come back, and the negative ones are refused, exactly when narrowing does no
harm: a list without a negative integer has none past the machine's range, and a list with one has
one inside. -/
theorem berKept_iff (fits : ns.length < 2 ^ 64) :
    BerKept packArms unpackArms ns ↔ BerFits ns := by
  have packed := pack_star packArms ns
  constructor
  · intro kept
    constructor
    · intro unsigned n member
      obtain ⟨bytes, wrote, back⟩ := kept.returns unsigned
      rw [packed] at wrote
      split at wrote
      · next narrowed =>
        cases wrote
        rw [unpack_star unpackArms ns fits narrowed, Except.ok.injEq] at back
        have same : narrow n = n := intValue_injective (map_inj_left.mp back n member)
        have := unsigned n member
        unfold narrow at same
        split at same <;> omega
      · cases wrote
    · intro negative
      obtain ⟨message, refused⟩ := kept.refuses negative
      rw [packed] at refused
      split at refused
      · cases refused
      · next some =>
        push Not at some
        obtain ⟨n, member, below⟩ := some
        refine ⟨n, member, ?_⟩
        unfold narrow at below
        split at below <;> omega
  · intro fit
    constructor
    · intro unsigned
      have same : ∀ n ∈ ns, narrow n = n := by
        intro n member
        have := unsigned n member
        have := fit.small unsigned n member
        rw [narrow, if_pos (by omega)]
      have narrowed : ∀ n ∈ ns, 0 ≤ narrow n := by
        intro n member
        rw [same n member]
        exact unsigned n member
      refine ⟨_, packed.trans (if_pos narrowed), ?_⟩
      rw [unpack_star unpackArms ns fits narrowed]
      exact congrArg Except.ok
        (map_congr_left fun n member => congrArg intValue (same n member))
    · intro negative
      obtain ⟨n, member, low, below⟩ := fit.seen negative
      refine ⟨_, packed.trans (if_neg fun all => ?_)⟩
      have narrowed := all n member
      rw [narrow, if_pos (by omega)] at narrowed
      omega

/-- `[300, 0].pack("w*")` comes back. -/
theorem berKept_small : BerKept unsupported (unknown "w*") [300, 0] :=
  (berKept_iff unsupported (unknown "w*") [300, 0] (by decide)).mpr
    ⟨by decide, fun ⟨n, member, negative⟩ => by simp at member; omega⟩

/-- `[2**63].pack("w*")` and `[-2**63 - 1].pack("w*")` write a zero. -/
theorem berKept_fails : ¬ BerKept unsupported (unknown "w*") [2 ^ 63] ∧
    ¬ BerKept unsupported (unknown "w*") [-2 ^ 63 - 1] := by
  constructor
  · intro kept
    obtain ⟨bytes, wrote, back⟩ := kept.returns (by simp)
    rw [pack_star] at wrote
    cases wrote
    rw [unpack_star _ _ (by decide) (by decide)] at back
    cases back
  · intro kept
    obtain ⟨message, refused⟩ := kept.refuses (by simp)
    cases refused

end Zeo.Pack
