import Mathlib
import Zeo.Value.Basic

/-!
# Array storage

An array keeps its elements in a vector behind an offset, so that `shift` need not move them. The
dead part in front of the offset goes when the array becomes empty, when it is half of a large
buffer, or before the next operation that counts positions from the front of the buffer. `truncate`
counts from the offset instead, in a machine word, and there the offset and the buffer can part.
-/

namespace Zeo.Value

open List

inductive Bound where
  | included (n : Nat)
  | excluded (n : Nat)
  | unbounded

inductive Answer where
  | unit
  | taken (v : Option RubyValue)
  | value (v : RubyValue)
  | list (vs : List RubyValue)
  | panicked
deriving DecidableEq

namespace Vec

/-- `slice::range`: the positions between two ends, if they lie in order within the length. -/
def resolve (low high : Bound) (length : Nat) : Option (Nat × Nat) :=
  let start := match low with
    | .included n => n
    | .excluded n => n + 1
    | .unbounded => 0
  let stop := match high with
    | .included n => n + 1
    | .excluded n => n
    | .unbounded => length
  if start ≤ stop ∧ stop ≤ length then some (start, stop) else none

/-- `Vec::insert`. -/
def insert (index : Nat) (v : RubyValue) (buf : List RubyValue) :
    Option (Answer × List RubyValue) :=
  if index ≤ buf.length then some (.unit, buf.insertIdx index v) else none

/-- `Vec::remove`. -/
def remove (index : Nat) (buf : List RubyValue) : Option (Answer × List RubyValue) :=
  buf[index]?.map fun v => (.value v, buf.eraseIdx index)

/-- `Vec::split_off`. -/
def splitOff (index : Nat) (buf : List RubyValue) : Option (Answer × List RubyValue) :=
  if index ≤ buf.length then some (.list (buf.drop index), buf.take index) else none

/-- `Vec::retain`, after the elements `seen`: what the test says of an element may depend on the
elements it has been asked about. -/
def retainFrom (keep : List RubyValue → RubyValue → Bool) (seen : List RubyValue) :
    List RubyValue → List RubyValue
  | [] => []
  | v :: vs =>
    if keep seen v then v :: retainFrom keep (seen ++ [v]) vs else retainFrom keep (seen ++ [v]) vs

/-- `Vec::retain`. -/
def retain (keep : List RubyValue → RubyValue → Bool) (buf : List RubyValue) :
    Option (Answer × List RubyValue) :=
  some (.unit, retainFrom keep [] buf)

/-- `Vec::drain`, whose iterator is run or dropped. -/
def drain (low high : Bound) (buf : List RubyValue) : Option (Answer × List RubyValue) :=
  (resolve low high buf.length).map fun range =>
    (.list ((buf.take range.2).drop range.1), buf.take range.1 ++ buf.drop range.2)

/-- `Vec::resize`. -/
def resize (length : Nat) (v : RubyValue) (buf : List RubyValue) :
    Option (Answer × List RubyValue) :=
  some (.unit, buf.take length ++ List.replicate (length - buf.length) v)

/-- `Vec::append` onto another vector, which takes all there is. -/
def appendTo (out buf : List RubyValue) : Option (Answer × List RubyValue) :=
  some (.list (out ++ buf), [])

end Vec

structure ArrayStore where
  beg : Nat
  /-- The buffer. A vector holds fewer than `2 ^ 63` elements. -/
  buf : List RubyValue

inductive ArrayOp where
  | push (v : RubyValue)
  | pop
  | shift
  | clear
  | extend (items : List RubyValue)
  /-- `append`, with what the other vector holds. -/
  | append (other : List RubyValue)
  | insert (index : UInt64) (v : RubyValue)
  | remove (index : UInt64)
  | truncate (len : UInt64)
  | splitOff (index : UInt64)
  | retain (keep : List RubyValue → RubyValue → Bool)
  | drain (low high : Bound)
  | resize (newLen : UInt64) (v : RubyValue)
  /-- A write through `deref_mut`. -/
  | set (index : UInt64) (v : RubyValue)
  /-- `gc_visit`, with what is in `out` already. -/
  | gcVisit (out : List RubyValue) (take : Bool)

namespace ArrayStore

/-- `From<Vec>`. -/
def ofVec (buf : List RubyValue) : ArrayStore := ⟨0, buf⟩

variable (s : ArrayStore)

/-- `deref`: the live part of the buffer. An offset past the buffer panics. -/
def deref : Option (List RubyValue) :=
  if s.beg ≤ s.buf.length then some (s.buf.drop s.beg) else none

/-- `vec`: the store without its dead part. An offset past the buffer panics. -/
def vec : Option ArrayStore :=
  if 0 < s.beg then s.deref.map ofVec else some s

/-- An operation on the vector behind `vec`. -/
def structural (f : List RubyValue → Option (Answer × List RubyValue)) : Answer × ArrayStore :=
  match s.vec with
  | none => (.panicked, s)
  | some s =>
    match f s.buf with
    | none => (.panicked, s)
    | some (answer, buf) => (answer, { s with buf := buf })

def pop : Answer × ArrayStore :=
  if s.beg < s.buf.length then (.taken s.buf.getLast?, { s with buf := s.buf.dropLast })
  else (.taken none, s)

def shift : Answer × ArrayStore :=
  if s.buf.length = s.beg then (.taken none, s)
  else
    match s.buf[s.beg]? with
    | none => (.panicked, s)
    | some v =>
      let buf := s.buf.set s.beg .nil
      let beg := s.beg + 1
      if beg = buf.length then (.taken (some v), ⟨0, []⟩)
      else if 512 ≤ beg ∧ buf.length ≤ beg * 2 then (.taken (some v), ⟨0, buf.drop beg⟩)
      else (.taken (some v), ⟨beg, buf⟩)

def truncate (len : UInt64) : ArrayStore :=
  { s with buf := s.buf.take ((s.beg + len.toNat) % 2 ^ 64) }

def set (s : ArrayStore) (index : UInt64) (v : RubyValue) : Answer × ArrayStore :=
  match s.deref with
  | none => (.panicked, s)
  | some live =>
    if index.toNat < live.length then
      (.unit, { s with buf := s.buf.set (s.beg + index.toNat) v })
    else (.panicked, s)

def gcVisit (out : List RubyValue) (take : Bool) : Answer × ArrayStore :=
  if take then s.structural (Vec.appendTo out)
  else
    match s.deref with
    | none => (.panicked, s)
    | some live => (.list (out ++ live), s)

def step : ArrayOp → Answer × ArrayStore
  | .push v => (.unit, { s with buf := s.buf ++ [v] })
  | .pop => s.pop
  | .shift => s.shift
  | .clear => (.unit, ⟨0, []⟩)
  | .extend items => (.unit, { s with buf := s.buf ++ items })
  | .append other => (.list [], { s with buf := s.buf ++ other })
  | .insert index v => s.structural (Vec.insert index.toNat v)
  | .remove index => s.structural (Vec.remove index.toNat)
  | .truncate len => (.unit, s.truncate len)
  | .splitOff index => s.structural (Vec.splitOff index.toNat)
  | .retain keep => s.structural (Vec.retain keep)
  | .drain low high => s.structural (Vec.drain low high)
  | .resize newLen v => s.structural (Vec.resize newLen.toNat v)
  | .set index v => s.set index v
  | .gcVisit out take => s.gcVisit out take

def run (s : ArrayStore) : List ArrayOp → List (Answer × ArrayStore)
  | [] => []
  | op :: ops => s.step op :: run (s.step op).2 ops

end ArrayStore

namespace PlainList

/-- An operation of a vector on a list, which a panic leaves as it is. -/
def structural (xs : List RubyValue) (f : List RubyValue → Option (Answer × List RubyValue)) :
    Answer × List RubyValue :=
  (f xs).getD (.panicked, xs)

def step (xs : List RubyValue) : ArrayOp → Answer × List RubyValue
  | .push v => (.unit, xs ++ [v])
  | .pop => (.taken xs.getLast?, xs.dropLast)
  | .shift => (.taken xs.head?, xs.tail)
  | .clear => (.unit, [])
  | .extend items => (.unit, xs ++ items)
  | .append other => (.list [], xs ++ other)
  | .insert index v => structural xs (Vec.insert index.toNat v)
  | .remove index => structural xs (Vec.remove index.toNat)
  | .truncate len => (.unit, xs.take len.toNat)
  | .splitOff index => structural xs (Vec.splitOff index.toNat)
  | .retain keep => structural xs (Vec.retain keep)
  | .drain low high => structural xs (Vec.drain low high)
  | .resize newLen v => structural xs (Vec.resize newLen.toNat v)
  | .set index v =>
    if index.toNat < xs.length then (.unit, xs.set index.toNat v) else (.panicked, xs)
  | .gcVisit out take => (.list (out ++ xs), if take then [] else xs)

def run (xs : List RubyValue) : List ArrayOp → List (Answer × List RubyValue)
  | [] => []
  | op :: ops => step xs op :: run (step xs op).2 ops

end PlainList

namespace ArrayStore

/-- The store holds the elements of a list: its offset lies within the buffer and the list stands
from there on. -/
structure Holds (s : ArrayStore) (xs : List RubyValue) : Prop where
  inside : s.beg ≤ s.buf.length
  live : s.buf.drop s.beg = xs

/-- The sum of the offset and the length asked for stays within the machine word. -/
def OpFits (s : ArrayStore) : ArrayOp → Prop
  | .truncate len => s.beg + len.toNat < 2 ^ 64
  | _ => True

def Fits (s : ArrayStore) : List ArrayOp → Prop
  | [] => True
  | op :: ops => s.OpFits op ∧ Fits (s.step op).2 ops

variable {s : ArrayStore} {xs : List RubyValue}

theorem holds_iff_deref : s.Holds xs ↔ s.deref = some xs := by
  unfold deref
  constructor
  · intro holds
    rw [if_pos holds.inside, holds.live]
  · intro shown
    split at shown
    · rename_i inside
      exact ⟨inside, Option.some.inj shown⟩
    · cases shown

section

variable (holds : s.Holds xs)

include holds

theorem Holds.length : s.buf.length = s.beg + xs.length := by
  have inside := holds.inside
  have lengths : (s.buf.drop s.beg).length = s.buf.length - s.beg := length_drop
  rw [holds.live] at lengths
  omega

theorem Holds.split : ∃ dead, s.buf = dead ++ xs ∧ dead.length = s.beg := by
  refine ⟨s.buf.take s.beg, ?_, length_take_of_le holds.inside⟩
  rw [← holds.live, take_append_drop]

omit holds in
theorem holds_append (dead xs : List RubyValue) : Holds ⟨dead.length, dead ++ xs⟩ xs where
  inside := by
    rw [length_append]
    exact Nat.le_add_right _ _
  live := drop_left

omit holds in
theorem holds_ofVec (xs : List RubyValue) : (ofVec xs).Holds xs := ⟨Nat.zero_le _, rfl⟩

theorem Holds.vec : s.vec = some (ofVec xs) := by
  unfold ArrayStore.vec
  split
  · rw [holds_iff_deref.mp holds]
    rfl
  · rename_i atFront
    have zero : s.beg = 0 := Nat.eq_zero_of_not_pos atFront
    have whole : s.buf = xs := by
      have live := holds.live
      rwa [zero, drop_zero] at live
    rw [← whole, ofVec, ← zero]

def Agrees (result : Answer × ArrayStore) (plain : Answer × List RubyValue) : Prop :=
  result.1 = plain.1 ∧ result.2.Holds plain.2

theorem Holds.structural (f : List RubyValue → Option (Answer × List RubyValue)) :
    Agrees (s.structural f) (PlainList.structural xs f) := by
  unfold ArrayStore.structural PlainList.structural
  rw [holds.vec]
  dsimp only [ofVec]
  cases f xs with
  | none => exact ⟨rfl, holds_ofVec xs⟩
  | some result => exact ⟨rfl, holds_ofVec result.2⟩

theorem Holds.pop : Agrees s.pop (.taken xs.getLast?, xs.dropLast) := by
  obtain ⟨dead, buf, length⟩ := holds.split
  have lengths := holds.length
  unfold ArrayStore.pop
  by_cases some_ : s.beg < s.buf.length
  · rw [if_pos some_]
    have nonempty : xs ≠ [] := by
      intro none
      rw [none, length_nil] at lengths
      omega
    have last : s.buf.getLast? = xs.getLast? := by
      rw [buf, List.getLast?_append_of_ne_nil dead nonempty]
    have front : s.buf.dropLast = dead ++ xs.dropLast := by
      rw [buf, dropLast_append_of_ne_nil nonempty]
    have kept := holds_append dead xs.dropLast
    rw [length, ← front] at kept
    exact ⟨congrArg Answer.taken last, kept⟩
  · rw [if_neg some_]
    have none : xs = [] := eq_nil_of_length_eq_zero (by omega)
    rw [none] at holds ⊢
    exact ⟨rfl, holds⟩

theorem Holds.shift : Agrees s.shift (.taken xs.head?, xs.tail) := by
  obtain ⟨dead, buf, length⟩ := holds.split
  have lengths := holds.length
  unfold ArrayStore.shift
  cases xs with
  | nil =>
    have empty : s.buf.length = s.beg := by
      rw [lengths]
      rfl
    rw [if_pos empty]
    exact ⟨rfl, holds⟩
  | cons x xs =>
    have some_ : s.buf.length ≠ s.beg := by
      rw [lengths, length_cons]
      omega
    have first : s.buf[s.beg]? = some x := by
      rw [buf, ← length, List.getElem?_append_right (Nat.le_refl _), Nat.sub_self]
      rfl
    -- The slot of the value taken becomes nil and joins the dead part.
    have cleared : s.buf.set s.beg .nil = (dead ++ [.nil]) ++ xs := by
      rw [buf, ← length, set_append_right _ _ (Nat.le_refl _), Nat.sub_self, append_assoc]
      rfl
    have grown : (dead ++ [RubyValue.nil]).length = s.beg + 1 := by
      rw [length_append, length]
      rfl
    rw [if_neg some_, first]
    dsimp only
    rw [cleared, ← grown]
    split
    · rename_i empty
      have total : (dead ++ [RubyValue.nil] ++ xs).length =
          (dead ++ [RubyValue.nil]).length + xs.length := length_append
      have none : xs = [] := eq_nil_of_length_eq_zero (by omega)
      rw [none]
      exact ⟨rfl, holds_ofVec []⟩
    · split
      · rw [drop_left]
        exact ⟨rfl, holds_ofVec xs⟩
      · exact ⟨rfl, holds_append _ xs⟩

/-- Cut at the sum that was meant, the live part is cut where the list is. -/
theorem Holds.truncate {len : UInt64} (fits : s.beg + len.toNat < 2 ^ 64) :
    (s.truncate len).Holds (xs.take len.toNat) := by
  obtain ⟨dead, buf, length⟩ := holds.split
  have cut : s.buf.take ((s.beg + len.toNat) % 2 ^ 64) = dead ++ xs.take len.toNat := by
    rw [Nat.mod_eq_of_lt fits, buf, ← length, take_length_add_append]
  unfold ArrayStore.truncate
  rw [cut, ← length]
  exact holds_append dead _

omit holds in
/-- A sum that wraps around lies in front of the offset, so the buffer is cut in front of it. -/
theorem truncate_wrapped {len : UInt64} (wraps : 2 ^ 64 ≤ s.beg + len.toNat) :
    (s.truncate len).buf.length < (s.truncate len).beg := by
  have bound : len.toNat < 2 ^ 64 := len.toNat_lt
  change (s.buf.take ((s.beg + len.toNat) % 2 ^ 64)).length < s.beg
  rw [length_take]
  omega

theorem Holds.set (index : UInt64) (v : RubyValue) :
    Agrees (s.set index v) (PlainList.step xs (.set index v)) := by
  obtain ⟨dead, buf, length⟩ := holds.split
  unfold ArrayStore.set
  rw [holds_iff_deref.mp holds]
  dsimp only [PlainList.step]
  split
  · have written : s.buf.set (s.beg + index.toNat) v = dead ++ xs.set index.toNat v := by
      rw [buf, ← length, set_append_right _ _ (Nat.le_add_right _ _), Nat.add_sub_cancel_left]
    rw [written, ← length]
    exact ⟨rfl, holds_append dead _⟩
  · exact ⟨rfl, holds⟩

theorem Holds.gcVisit (out : List RubyValue) (take : Bool) :
    Agrees (s.gcVisit out take) (PlainList.step xs (.gcVisit out take)) := by
  unfold ArrayStore.gcVisit
  cases take with
  | true => exact holds.structural (Vec.appendTo out)
  | false =>
    rw [holds_iff_deref.mp holds]
    exact ⟨rfl, holds⟩

/-- Elements that come in behind leave the offset alone. -/
theorem Holds.extend (items : List RubyValue) :
    Holds { s with buf := s.buf ++ items } (xs ++ items) where
  inside := by
    have inside := holds.inside
    change s.beg ≤ (s.buf ++ items).length
    rw [length_append]
    omega
  live := by
    rw [drop_append_of_le_length holds.inside, holds.live]

/-- An operation whose sum does not overflow is the operation on the list. -/
theorem Holds.step (op : ArrayOp) (fits : s.OpFits op) :
    Agrees (s.step op) (PlainList.step xs op) := by
  cases op with
  | push v => exact ⟨rfl, holds.extend [v]⟩
  | pop => exact holds.pop
  | shift => exact holds.shift
  | clear => exact ⟨rfl, holds_ofVec []⟩
  | extend items => exact ⟨rfl, holds.extend items⟩
  | append other => exact ⟨rfl, holds.extend other⟩
  | insert index v | remove index | splitOff index | retain keep | drain low high
  | resize newLen v => exact holds.structural _
  | truncate len => exact ⟨rfl, holds.truncate fits⟩
  | set index v => exact holds.set index v
  | gcVisit out take => exact holds.gcVisit out take

end

/-- An operation whose sum overflows leaves the offset past the buffer. -/
theorem step_overflow {op : ArrayOp} (overflows : ¬s.OpFits op) :
    (s.step op).2.buf.length < (s.step op).2.beg := by
  cases op with
  | truncate len => exact truncate_wrapped (Nat.le_of_not_lt overflows)
  | _ => exact absurd trivial overflows

/-- A run agrees with the run on a list: every answer is the same, every store shows the list of
its moment, and no offset exceeds its buffer. -/
def Refines (s : ArrayStore) (xs : List RubyValue) (ops : List ArrayOp) : Prop :=
  (s.run ops).map (fun result => (result.1, result.2.deref)) =
      (PlainList.run xs ops).map (fun result => (result.1, some result.2)) ∧
    ∀ result ∈ s.run ops, result.2.beg ≤ result.2.buf.length

theorem refines_cons (op : ArrayOp) (ops : List ArrayOp) :
    s.Refines xs (op :: ops) ↔
      Agrees (s.step op) (PlainList.step xs op) ∧
        (s.step op).2.Refines (PlainList.step xs op).2 ops := by
  have runs : s.run (op :: ops) = s.step op :: (s.step op).2.run ops := rfl
  have plain : PlainList.run xs (op :: ops) =
      PlainList.step xs op :: PlainList.run (PlainList.step xs op).2 ops := rfl
  unfold Refines Agrees
  rw [runs, plain, map_cons, map_cons, List.cons.injEq, Prod.mk.injEq, ← holds_iff_deref,
    forall_mem_cons]
  constructor
  · rintro ⟨⟨first, rest⟩, -, inside⟩
    exact ⟨first, rest, inside⟩
  · rintro ⟨first, rest, inside⟩
    exact ⟨⟨first, rest⟩, first.2.inside, inside⟩

/-- A run from a store that holds a list agrees with the run on the list exactly when none of its
operations overflows. -/
theorem refines_iff_fits (holds : s.Holds xs) (ops : List ArrayOp) :
    s.Refines xs ops ↔ s.Fits ops := by
  induction ops generalizing s xs with
  | nil => exact ⟨fun _ => trivial, fun _ => ⟨rfl, fun _ none => absurd none not_mem_nil⟩⟩
  | cons op ops ih =>
    rw [refines_cons]
    constructor
    · rintro ⟨agrees, rest⟩
      have fits : s.OpFits op := by
        by_contra overflows
        have past := step_overflow overflows
        have inside := agrees.2.inside
        omega
      exact ⟨fits, (ih agrees.2).mp rest⟩
    · rintro ⟨fits, rest⟩
      have agrees := holds.step op fits
      exact ⟨agrees, (ih agrees.2).mpr rest⟩

/-- Started from a vector, every sequence of operations answers and shows what the same sequence
on a plain list does, with the offset within the buffer, exactly when no `truncate` of it asks for
a length that overflows the machine word when the offset of its moment is added. -/
theorem run_refines_plainList (xs : List RubyValue) (ops : List ArrayOp) :
    (ofVec xs).Refines xs ops ↔ (ofVec xs).Fits ops :=
  refines_iff_fits (holds_ofVec xs) ops

/-- `[nil, nil]` after `shift` and `truncate(usize::MAX)`: the offset is 1 and the buffer empty, so
that the next look at it panics, where the list has one element left. -/
theorem truncate_past_offset :
    (ofVec [.nil, .nil]).run [.shift, .truncate 0xFFFFFFFFFFFFFFFF] =
        [(.taken (some .nil), ⟨1, [.nil, .nil]⟩), (.unit, ⟨1, []⟩)] ∧
      (⟨1, []⟩ : ArrayStore).deref = none ∧
      PlainList.run [.nil, .nil] [.shift, .truncate 0xFFFFFFFFFFFFFFFF] =
        [(.taken (some .nil), [.nil]), (.unit, [.nil])] :=
  ⟨rfl, rfl, rfl⟩

end ArrayStore

end Zeo.Value
