import Zeo.Lib.Pointwise
import Zeo.Value.Basic

/-!
# Projected keys

A Hash projects each key to a `HashKey` and compares those. The projection is structural, or by
address once `compare_by_identity` is set. Only one kind of key compares by running Ruby code: an
object with its own `hash` carries itself along, and two such keys are equal when the answers of
`hash` are and `eql?` says so. That relation on objects is a parameter.
-/

namespace Zeo.Value

open Zeo.Enc Zeo.Lib List

/-- `HashKey`, its variants in the order of the source. An open end of a range is `nil`, which
is no end a range can have. -/
inductive HashKey where
  | nil
  /-- A container met again inside itself. -/
  | recursive
  | bool (b : Bool)
  | int (i : Int)
  | float (bits : UInt64)
  | symbol (s : Symbol)
  | str (bytes : List UInt8) (tag : Nat)
  | array (parts : List HashKey)
  | range (start finish : HashKey) (exclusive : Bool)
  | regexp (source : String) (flags : Nat)
  | classRef (id : Nat)
  /-- The key of what an object's own `hash` answered, and the object to ask `eql?`. -/
  | computed (answer : HashKey) (object : Addr)
  | identity (addr : Addr)
  | bigInt (n : Int)
  | rational (num den : Int)
  | complex (real imag : HashKey)
  | hash (pairs : List (HashKey × HashKey))

mutual
/-- `HashKey::eq`, with `eql` for what `EqlProbe::eq` answers on two objects. -/
def HashKey.beq (eql : UserEql) : HashKey → HashKey → Bool
  | .nil, .nil => true
  | .recursive, .recursive => true
  | .bool a, .bool b => a == b
  | .int a, .int b => a == b
  | .float a, .float b => a == b
  | .symbol a, .symbol b => a == b
  | .str a s, .str b t => a == b && s == t
  | .array a, .array b => HashKey.beqList eql a b
  | .range a b x, .range c d y => HashKey.beq eql a c && HashKey.beq eql b d && x == y
  | .regexp a s, .regexp b t => a == b && s == t
  | .classRef a, .classRef b => a == b
  | .computed a s, .computed b t => HashKey.beq eql a b && eql s t
  | .identity a, .identity b => a == b
  | .bigInt a, .bigInt b => a == b
  | .rational a s, .rational b t => a == b && s == t
  | .complex a b, .complex c d => HashKey.beq eql a c && HashKey.beq eql b d
  | .hash a, .hash b => HashKey.beqPairs eql a b
  | _, _ => false
termination_by structural key => key

def HashKey.beqList (eql : UserEql) : List HashKey → List HashKey → Bool
  | [], [] => true
  | a :: as, b :: bs => HashKey.beq eql a b && HashKey.beqList eql as bs
  | _, _ => false
termination_by structural keys => keys

def HashKey.beqPair (eql : UserEql) : HashKey × HashKey → HashKey × HashKey → Bool
  | (a, b), (c, d) => HashKey.beq eql a c && HashKey.beq eql b d
termination_by structural pair => pair

def HashKey.beqPairs (eql : UserEql) : List (HashKey × HashKey) → List (HashKey × HashKey) → Bool
  | [], [] => true
  | a :: as, b :: bs => HashKey.beqPair eql a b && HashKey.beqPairs eql as bs
  | _, _ => false
termination_by structural pairs => pairs
end

/-- Keys compared under one answer to `eql?`. -/
def Key (_eql : UserEql) : Type := HashKey

instance (eql : UserEql) : BEq (Key eql) := ⟨HashKey.beq eql⟩

/-- What Ruby asks of `eql?`: an equivalence on objects. -/
structure EqlLaws (eql : UserEql) : Prop where
  refl : ∀ a, eql a a = true
  symm : ∀ a b, eql a b = true → eql b a = true
  trans : ∀ a b c, eql a b = true → eql b c = true → eql a c = true

def HashKey.rank : HashKey → Nat
  | .nil => 0
  | .recursive => 1
  | .bool _ => 2
  | .int _ => 3
  | .float _ => 4
  | .symbol _ => 5
  | .str _ _ => 6
  | .array _ => 7
  | .range _ _ _ => 8
  | .regexp _ _ => 9
  | .classRef _ => 10
  | .computed _ _ => 11
  | .identity _ => 12
  | .bigInt _ => 13
  | .rational _ _ => 14
  | .complex _ _ => 15
  | .hash _ => 16

def HashKey.children : HashKey → List HashKey
  | .array parts => parts
  | .range start finish _ => [start, finish]
  | .computed answer _ => [answer]
  | .complex real imag => [real, imag]
  | .hash pairs => pairs.flatMap fun pair => [pair.1, pair.2]
  | _ => []

/-- A key without the keys inside it and without its object. -/
def HashKey.bare : HashKey → HashKey
  | .array _ => .array []
  | .range _ _ exclusive => .range .nil .nil exclusive
  | .computed _ _ => .computed .nil 0
  | .complex _ _ => .complex .nil .nil
  | .hash _ => .hash []
  | key => key

theorem HashKey.rank_bare (key : HashKey) : key.bare.rank = key.rank := by cases key <;> rfl

/-- The object to ask `eql?`. -/
def HashKey.object : HashKey → Option Addr
  | .computed _ object => some object
  | _ => none

theorem HashKey.children_cons (pair : HashKey × HashKey) (pairs : List (HashKey × HashKey)) :
    children (.hash (pair :: pairs)) = pair.1 :: pair.2 :: children (.hash pairs) := rfl

variable {a b : HashKey}

theorem HashKey.eq_of_parts (inside : a.children = b.children)
    (own : a.bare = b.bare) (objects : a.object = b.object) : a = b := by
  have pairs : ∀ as bs : List (HashKey × HashKey), children (.hash as) = children (.hash bs) →
      as = bs := by
    intro as
    induction as with
    | nil => rintro (_ | _) same <;> simp_all [children]
    | cons a as ih =>
      rintro (_ | ⟨b, bs⟩) same
      · simp [children] at same
      · simp only [children_cons, cons.injEq] at same
        rw [Prod.ext same.1 same.2.1, ih bs same.2.2]
  cases a <;> cases b <;> cases own <;> simp_all [children, object]
  exact pairs _ _ inside

theorem HashKey.sizeOf_lt_of_child {key child : HashKey} (inside : child ∈ key.children) :
    sizeOf child < sizeOf key := by
  cases key with
  | array parts =>
    have smaller : sizeOf child < sizeOf parts := sizeOf_lt_of_mem inside
    simp only [array.sizeOf_spec]
    omega
  | range start finish _ | complex start finish =>
    simp only [children, mem_cons, not_mem_nil, or_false] at inside
    rcases inside with rfl | rfl <;> simp <;> omega
  | computed answer object =>
    rw [mem_singleton.mp inside]
    simp only [computed.sizeOf_spec]
    omega
  | hash pairs =>
    obtain ⟨⟨key, value⟩, mem, either⟩ := mem_flatMap.mp inside
    have smaller := sizeOf_lt_of_mem mem
    simp only [Prod.mk.sizeOf_spec, hash.sizeOf_spec, mem_cons, not_mem_nil, or_false]
      at smaller either ⊢
    rcases either with rfl | rfl <;> omega
  | _ => exact absurd inside not_mem_nil

theorem HashKey.induction {holds : HashKey → Prop}
    (step : ∀ key, (∀ child ∈ key.children, holds child) → holds key) (key : HashKey) :
    holds key :=
  step key fun child _inside => induction step child
termination_by sizeOf key
decreasing_by exact sizeOf_lt_of_child _inside

section Equivalence

variable {eql : UserEql}

theorem HashKey.beqList_iff (as bs : List HashKey) :
    beqList eql as bs = true ↔ Forall₂ (beq eql · · = true) as bs := by
  induction as generalizing bs with
  | nil => cases bs <;> simp [beqList]
  | cons a as ih => cases bs <;> simp [beqList, ih]

theorem HashKey.beqPairs_iff (as bs : List (HashKey × HashKey)) :
    beqPairs eql as bs = true ↔
      Forall₂ (beq eql · · = true) (children (.hash as)) (children (.hash bs)) := by
  induction as generalizing bs with
  | nil => cases bs <;> simp [beqPairs, children]
  | cons a as ih =>
    obtain ⟨key, value⟩ := a
    cases bs with
    | nil => simp [beqPairs, children]
    | cons b bs => simp [beqPairs, beqPair, children_cons, ih, and_assoc]

theorem HashKey.rank_of_beq (same : beq eql a b = true) :
    a.rank = b.rank := by
  cases a <;> cases b <;> first | rfl | cases same

/-- Keys are equal if they are of one variant with the same data, their objects are `eql?` and the
keys inside them are equal. -/
theorem HashKey.beq_iff (a b : HashKey) :
    beq eql a b = true ↔ a.bare = b.bare ∧ Option.Rel (eql · · = true) a.object b.object ∧
      Forall₂ (beq eql · · = true) a.children b.children := by
  by_cases ranks : a.rank = b.rank
  · cases a <;> cases b <;> cases ranks <;>
      simp [beq, bare, object, children, beqList_iff, beqPairs_iff, and_comm]
  · refine ⟨fun same => absurd (rank_of_beq same) ranks, fun same => absurd ?_ ranks⟩
    rw [← rank_bare a, ← rank_bare b, same.1]

variable (laws : EqlLaws eql)

include laws

theorem HashKey.beq_refl (key : HashKey) : beq eql key key = true := by
  induction key using HashKey.induction with
  | step key ih =>
    have object : Option.Rel (eql · · = true) key.object key.object := by
      cases key.object with
      | none => exact .none
      | some object => exact .some (laws.refl object)
    exact (beq_iff key key).mpr ⟨rfl, object, forall₂_same.mpr ih⟩

theorem HashKey.beq_symm (same : beq eql a b = true) : beq eql b a = true := by
  induction a using HashKey.induction generalizing b with
  | step a ih =>
    obtain ⟨bare, objects, inside⟩ := (beq_iff a b).mp same
    have flipped : ∀ x y, Option.Rel (eql · · = true) x y → Option.Rel (eql · · = true) y x := by
      rintro _ _ (known | _)
      · exact .some (laws.symm _ _ known)
      · exact .none
    exact (beq_iff b a).mpr ⟨bare.symm, flipped _ _ objects, forall₂_symm_of_mem inside ih⟩

theorem HashKey.beq_trans {a b c : HashKey} (first : beq eql a b = true)
    (second : beq eql b c = true) : beq eql a c = true := by
  induction a using HashKey.induction generalizing b c with
  | step a ih =>
    obtain ⟨bare, objects, inside⟩ := (beq_iff a b).mp first
    obtain ⟨bare', objects', inside'⟩ := (beq_iff b c).mp second
    have chained : ∀ x y z, Option.Rel (eql · · = true) x y → Option.Rel (eql · · = true) y z →
        Option.Rel (eql · · = true) x z := by
      rintro _ _ _ (known | _) (known' | _)
      · exact .some (laws.trans _ _ _ known known')
      · exact .none
    exact (beq_iff a c).mpr
      ⟨bare.trans bare', chained _ _ _ objects objects', forall₂_trans_of_mem inside inside' ih⟩

theorem Key.equivBEq : EquivBEq (Key eql) where
  rfl := HashKey.beq_refl laws _
  symm := HashKey.beq_symm laws
  trans := HashKey.beq_trans laws

end Equivalence

/-! ## Order

The derived order serves one purpose: a hash used as a key lists its pairs in a canonical
order. -/

mutual
/-- `HashKey::cmp`. Symbols compare by interner number and objects by address. -/
def HashKey.cmp (symbolId : Symbol → Nat) : HashKey → HashKey → Ordering
  | .bool a, .bool b => compare a b
  | .int a, .int b => compare a b
  | .float a, .float b => compare a b
  | .symbol a, .symbol b => compare (symbolId a) (symbolId b)
  | .str a s, .str b t => (compare a b).then (compare s t)
  | .array a, .array b => HashKey.cmpList symbolId a b
  | .range a b x, .range c d y =>
    ((HashKey.cmp symbolId a c).then (HashKey.cmp symbolId b d)).then (compare x y)
  | .regexp a s, .regexp b t => (compare a b).then (compare s t)
  | .classRef a, .classRef b => compare a b
  | .computed a s, .computed b t => (HashKey.cmp symbolId a b).then (compare s t)
  | .identity a, .identity b => compare a b
  | .bigInt a, .bigInt b => compare a b
  | .rational a s, .rational b t => (compare a b).then (compare s t)
  | .complex a b, .complex c d => (HashKey.cmp symbolId a c).then (HashKey.cmp symbolId b d)
  | .hash a, .hash b => HashKey.cmpPairs symbolId a b
  | a, b => compare a.rank b.rank
termination_by structural key => key

def HashKey.cmpList (symbolId : Symbol → Nat) : List HashKey → List HashKey → Ordering
  | [], [] => .eq
  | [], _ :: _ => .lt
  | _ :: _, [] => .gt
  | a :: as, b :: bs => (HashKey.cmp symbolId a b).then (HashKey.cmpList symbolId as bs)
termination_by structural keys => keys

def HashKey.cmpPair (symbolId : Symbol → Nat) : HashKey × HashKey → HashKey × HashKey → Ordering
  | (a, b), (c, d) => (HashKey.cmp symbolId a c).then (HashKey.cmp symbolId b d)
termination_by structural pair => pair

def HashKey.cmpPairs (symbolId : Symbol → Nat) :
    List (HashKey × HashKey) → List (HashKey × HashKey) → Ordering
  | [], [] => .eq
  | [], _ :: _ => .lt
  | _ :: _, [] => .gt
  | a :: as, b :: bs => (HashKey.cmpPair symbolId a b).then (HashKey.cmpPairs symbolId as bs)
termination_by structural pairs => pairs
end

/-- `sort` on the pairs of a hash key. -/
def HashKey.sortPairs (symbolId : Symbol → Nat) (pairs : List (HashKey × HashKey)) :
    List (HashKey × HashKey) :=
  pairs.mergeSort fun a b => (HashKey.cmpPair symbolId a b).isLE

/-- The outcome of a projection. A `hash` of the program that raises does not stop it: the raise
is parked and reported with the result. -/
inductive Projected (α : Type) where
  | overflow
  | found (result : α) (raised : Bool)

def Projected.park {α : Type} (raised : Bool) : Projected α → Projected α
  | .overflow => .overflow
  | .found a later => .found a (raised || later)

variable {α β : Type}

def Projected.bind : Projected α → (α → Projected β) → Projected β
  | .overflow, _ => .overflow
  | .found a raised, f => (f a).park raised

instance : Monad Projected where
  pure a := .found a false
  bind := Projected.bind

instance : LawfulMonad Projected := LawfulMonad.mk' Projected
  (fun x => by
    cases x with
    | overflow => rfl
    | found a raised => cases raised <;> rfl)
  (fun a f => by
    change (f a).park false = f a
    cases f a <;> rfl)
  (fun x f g => by
    cases x with
    | overflow => rfl
    | found a raised =>
      change ((f a).park raised).bind g = ((f a).bind g).park raised
      cases f a with
      | overflow => rfl
      | found b later =>
        change (g b).park (raised || later) = ((g b).park later).park raised
        cases g b with
        | overflow => rfl
        | found c last => simp [Projected.park, Bool.or_assoc])

/-- Two projections in sequence reach a result without a raise exactly when both do. -/
theorem Projected.bind_eq_pure (x : Projected α) (f : α → Projected β) (b : β) :
    (x >>= f) = pure b ↔ ∃ a, x = pure a ∧ f a = pure b := by
  change x.bind f = .found b false ↔ ∃ a, x = .found a false ∧ f a = .found b false
  cases x with
  | overflow => simp [Projected.bind]
  | found a raised =>
    cases later : f a with
    | overflow => simp [Projected.bind, later, park]
    | found c last => simp [Projected.bind, later, park]; tauto

def Projected.each (f : α → Projected β) : List α → Projected (List β)
  | [] => pure []
  | a :: as => do
    let b ← f a
    let bs ← Projected.each f as
    pure (b :: bs)

/-- The address that stands for a value under identity comparison, for the kinds that have
one. -/
def identityOf : RubyValue → Option Addr
  | .str s => some s.addr
  | .array addr => some addr
  | .bigInt addr => some addr
  | .rational addr => some addr
  | .complex addr => some addr
  | .object addr => some addr
  | .range addr => some addr
  | _ => none

/-- The bits a float is keyed by: negative zero is keyed as zero. -/
def floatKeyBits (bits : UInt64) : UInt64 := if bits = 0x8000000000000000 then 0 else bits

def RegexpData.flags (r : RegexpData) : Nat :=
  r.ignoreCase.toNat + 2 * r.extended.toNat + 4 * r.multiline.toNat

/-- The key of a match: its subject, its pattern and its captured regions. -/
def MatchFields.key (m : MatchFields) : HashKey :=
  .array ([.str m.haystack 0, .str m.regexp.source.toUTF8.toList 0, .bool m.regexp.ignoreCase,
      .bool m.regexp.multiline, .bool m.regexp.extended] ++
    m.groups.map fun group =>
      match group with
      | some (start, finish) => .array [.int start, .int finish]
      | none => .nil)

/-- `hash_key_rec`, on a stack of `depth` frames; `seen` holds the containers being projected. -/
def hashKeyRec (w : World) : Nat → RubyValue → Bool → List Addr → Projected HashKey
  | 0, _, _, _ => .overflow
  | depth + 1, v, byIdentity, seen =>
    match (if byIdentity then identityOf v else none) with
    | some addr => pure (.identity addr)
    | none =>
      match v with
      | .nil => pure .nil
      | .bool b => pure (.bool b)
      | .int i => pure (.int i.val)
      | .bigInt addr => pure (.bigInt (w.bigInt addr))
      | .rational addr => pure (.rational (w.rational addr).1 (w.rational addr).2)
      | .complex addr => do
        let real ← hashKeyRec w depth (w.complex addr).1 false seen
        let imag ← hashKeyRec w depth (w.complex addr).2 false seen
        pure (.complex real imag)
      | .float bits => pure (.float (floatKeyBits bits))
      | .symbol s => pure (.symbol s)
      | .str s => pure (.str (w.strBuf s).bytes (w.strBuf s).hashKeyTag)
      | .classRef id => pure (.classRef id)
      | .array addr =>
        if addr ∈ seen then pure .recursive
        else do
          let parts ← Projected.each
            (fun e => hashKeyRec w depth e false (addr :: seen)) (w.array addr)
          pure (.array parts)
      | .range addr => do
        let start ← hashKeyRec w depth (w.range addr).1 false seen
        let finish ← hashKeyRec w depth (w.range addr).2.1 false seen
        pure (.range start finish (w.range addr).2.2)
      | .hash addr =>
        if addr ∈ seen then pure .recursive
        else do
          let pairs ← Projected.each
            (fun pair => do
              let key ← hashKeyRec w depth pair.1 false (addr :: seen)
              let value ← hashKeyRec w depth pair.2 false (addr :: seen)
              pure (key, value))
            (w.hashPairs addr)
          pure (.hash (HashKey.sortPairs w.symbolId pairs))
      | .object addr =>
        match w.userHash addr with
        | .returned answer => do
          let key ← hashKeyRec w depth answer false seen
          pure (.computed key addr)
        | .raised => .found (.identity addr) true
        | .absent =>
          match w.builtinPayload addr with
          | some payload => hashKeyRec w depth payload byIdentity seen
          | none => pure (.identity addr)
      | .regexp addr => pure (.regexp (w.regexp addr).source (w.regexp addr).flags)
      | .matchData addr => pure (w.matchData addr).key
      | .reference _ addr => pure (.identity addr)

def hashKeyIn (w : World) (v : RubyValue) (byIdentity : Bool) : Projected HashKey :=
  hashKeyRec w (w.stackDepth + 1) v byIdentity []

def hashKey (w : World) (v : RubyValue) : Projected HashKey := hashKeyIn w v false

theorem hashKeyIn_str (w : World) (s : RStr) :
    hashKeyIn w (.str s) false =
      pure (.str (w.strBuf s).bytes (w.strBuf s).hashKeyTag) := rfl

/-- Under identity comparison a kind with an address is keyed by it, and every other kind as
ever. -/
theorem hashKeyIn_identity (w : World) (v : RubyValue) :
    hashKeyIn w v true =
      match identityOf v with
      | some addr => pure (.identity addr)
      | none => hashKeyIn w v false := by
  cases v <;> rfl

end Zeo.Value
