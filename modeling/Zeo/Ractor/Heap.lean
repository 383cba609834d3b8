import Zeo.Value.HashInvariant

/-!
# The heap the ractors share

All ractors of a process see one heap. A cell holds a string, an array, a hash, a range, an object
or a proc, with its frozen and moved flags and the instance variables the runtime keeps beside
values that are not objects. Every other value is an immediate or is never looked into.
-/

namespace Zeo.Ractor

open Zeo.Lib Zeo.Value

/-- What a class that implements `RubyObject` decides about its instances. -/
structure ObjectType where
  port : Bool
  /-- `set_frozen` is recorded: it does nothing for a `Time`, for `ENV` and for some others. -/
  freezes : Bool
  /-- `retag_moved` is recorded. -/
  retags : Bool
deriving DecidableEq

structure ObjectData where
  type : ObjectType
  cls : Nat
  /-- What `ivar_pairs` lists, by name without the at sign. -/
  ivars : Fields
  distinct : (ivars.map (·.1)).Nodup
  /-- What `ivar_values` lists where that is something else: nothing for a `Pathname`, the last error
  for an `Encoding::Converter`. -/
  listed : Option (List RubyValue)
  /-- The members of a Struct or Data, which are no instance variables. -/
  members : List RubyValue
  /-- The builtin an instance of a builtin's subclass wraps. -/
  payload : Option RubyValue

section

variable {eql : UserEql} (im : ValueMap eql)

inductive Body where
  | str (buf : StrBuf)
  | array (elems : List RubyValue)
  | hash (data : RHashData im)
  /-- A range; an open end is absent. -/
  | range (start finish : Option RubyValue) (excl : Bool)
  | object (data : ObjectData)
  | proc

structure Cell where
  body : Body im
  frozen : Bool
  moved : Bool
  /-- What `value_ivars` keeps for it. -/
  ivars : Fields

structure Heap where
  cell : Addr → Option (Cell im)
  next : Addr
  fresh : ∀ addr, next ≤ addr → cell addr = none
  /-- `any_moved`: some value has been moved. -/
  anyMoved : Bool
  /-- The instance variables of a value without a cell: what `value_ivars` keeps for a regexp, a
  ractor and the like, and `civars` for a class. -/
  beside : RubyValue → List RubyValue

end

variable {eql : UserEql} {im : ValueMap eql}

/-- `Ractor::MovedObject`. -/
def movedObjectClass : Nat := 163

namespace Heap

def empty : Heap im := ⟨fun _ => none, 0, fun _ _ => rfl, false, fun _ => []⟩

variable (h : Heap im)

def alloc (cell : Cell im) : Addr × Heap im :=
  (h.next,
    { h with
      cell := fun addr => if addr = h.next then some cell else h.cell addr
      next := h.next + 1
      fresh := by
        intro addr past
        rw [if_neg (Nat.ne_of_gt (Nat.lt_of_succ_le past))]
        exact h.fresh addr (Nat.le_of_succ_le past) })

variable (addr : Addr)

def update (f : Cell im → Cell im) : Heap im :=
  { h with
    cell := fun a => if a = addr then (h.cell a).map f else h.cell a
    fresh := fun a past => by
      rw [h.fresh a past]
      simp }

def body : Option (Body im) := (h.cell addr).map (·.body)

/-- `is_frozen`. -/
def frozen : Bool := ((h.cell addr).map (·.frozen)).getD false

/-- `is_moved`. -/
def moved : Bool := ((h.cell addr).map (·.moved)).getD false

/-- What `value_ivars` keeps for an address. -/
def sideIvars : Fields :=
  ((h.cell addr).map (·.ivars)).getD []

def str : StrBuf :=
  match h.body addr with
  | some (.str buf) => buf
  | _ => ⟨[], Enc.ascii8bit⟩

def elems : List RubyValue :=
  match h.body addr with
  | some (.array elems) => elems
  | _ => []

def table : RHashData im :=
  match h.body addr with
  | some (.hash data) => data
  | _ => RHashData.new .nil

def range : Option RubyValue × Option RubyValue × Bool :=
  match h.body addr with
  | some (.range start finish excl) => (start, finish, excl)
  | _ => (none, none, false)

def object : ObjectData :=
  match h.body addr with
  | some (.object data) => data
  | _ => ⟨⟨false, true, true⟩, 0, [], List.nodup_nil, none, [], none⟩

/-- `is_frozen` on a string object. -/
def strFrozen : RStr → Bool
  | .shared addr => h.frozen addr
  | .frozenCopy _ _ => true

/-- `Freezable::set_frozen`, and that of a proc. -/
def setFrozen : Heap im :=
  h.update addr fun cell => { cell with frozen := true }

end Heap

/-- `container_identity`. The kind and the address of a container together name its payload. -/
def containerIdentity : RubyValue → Option RubyValue
  | .array addr => some (.array addr)
  | .hash addr => some (.hash addr)
  | .object addr => some (.object addr)
  | _ => none

variable (h : Heap im)

def valueMoved : RubyValue → Bool
  | .str (.shared addr) => h.moved addr
  | .array addr => h.moved addr
  | .hash addr => h.moved addr
  | .object addr => (h.object addr).cls == movedObjectClass
  | _ => false

/-- A husk: a moved value, once the gate for moves is armed. -/
def husk (v : RubyValue) : Bool := h.anyMoved && valueMoved h v

/-- `ivar_values` of an object. A port has none. -/
def ivarValues (addr : Addr) : List RubyValue :=
  if (h.object addr).type.port then []
  else (h.object addr).listed.getD ((h.object addr).ivars.map (·.2))

def pairValues (addr : Addr) : List RubyValue :=
  (hashPairsSnapshot (h.table addr)).flatMap fun pair => [pair.1, pair.2]

def rangeEnds (addr : Addr) : List RubyValue :=
  (h.range addr).1.toList ++ (h.range addr).2.1.toList

def walkedEdges : RubyValue → List RubyValue
  | .range addr => rangeEnds h addr
  | .array addr => h.elems addr
  | .hash addr => pairValues h addr
  | .object addr => ivarValues h addr
  | _ => []

/-- What else a value leads to: the defaults of a hash, the members of a Struct, the builtin a
subclass wraps, the instance variables of an object that `ivar_values` does not list, and those that
are kept beside a value. -/
def hiddenEdges : RubyValue → List RubyValue
  | .str (.shared addr) => (h.sideIvars addr).map (·.2)
  | .array addr => (h.sideIvars addr).map (·.2)
  | .hash addr => (h.table addr).default :: (h.table addr).defaultProc.toList ++
      (h.sideIvars addr).map (·.2)
  | .object addr => (h.object addr).ivars.map (·.2) ++ (h.object addr).members ++
      (h.object addr).payload.toList ++ (h.sideIvars addr).map (·.2)
  | .reference .proc addr => (h.sideIvars addr).map (·.2)
  | .range _ | .str _ => []
  | v => h.beside v

def targetOf : RubyValue → Option Addr
  | .str (.shared addr) => some addr
  | .array addr => some addr
  | .hash addr => some addr
  | .range addr => some addr
  | .object addr => some addr
  | .reference .proc addr => some addr
  | _ => none

def fits : RubyValue → Body im → Bool
  | .str _, .str _ => true
  | .array _, .array _ => true
  | .hash _, .hash _ => true
  | .range _, .range _ _ _ => true
  | .object _, .object _ => true
  | .reference .proc _, .proc => true
  | _, _ => false

/-- The value leads to a cell of its kind, or nowhere. -/
def Inside (v : RubyValue) : Prop :=
  ∀ addr ∈ targetOf v, ∃ body, h.body addr = some body ∧ fits v body = true

def Body.values : Body im → List RubyValue
  | .str _ => []
  | .array elems => elems
  | .hash data => (hashPairsSnapshot data).flatMap (fun pair => [pair.1, pair.2]) ++
      data.default :: data.defaultProc.toList
  | .range start finish _ => start.toList ++ finish.toList
  | .object data => data.ivars.map (·.2) ++ data.listed.getD [] ++ data.members ++
      data.payload.toList
  | .proc => []

/-- Ranges, which no walk guards, by their age. -/
def rangeRank : RubyValue → Nat
  | .range addr => addr + 1
  | _ => 0

/-- Nothing on the heap leads past it, and a range is younger than the ranges it holds. -/
structure WellFormed (h : Heap im) : Prop where
  inside : ∀ addr body, h.body addr = some body → ∀ v ∈ body.values, Inside h v
  /-- Instance variables beside a value stay inside. -/
  side : ∀ addr, ∀ v ∈ (h.sideIvars addr).map (·.2), Inside h v
  older : ∀ addr start finish excl, h.body addr = some (.range start finish excl) →
    ∀ b, .range b ∈ start.toList ++ finish.toList → b < addr

theorem inside_iff {h : Heap im} {v : RubyValue} :
    Inside h v ↔ ((targetOf v).all fun addr => (h.body addr).any (fits v)) = true := by
  unfold Inside
  cases targetOf v with
  | none => simp
  | some addr => simp [Option.any_eq_true]

instance (h : Heap im) (v : RubyValue) : Decidable (Inside h v) := decidable_of_iff _ inside_iff.symm

theorem Heap.lt_next {h : Heap im} {addr : Addr} {body : Body im}
    (there : h.body addr = some body) : addr < h.next := by
  by_contra past
  have none : h.cell addr = none := h.fresh addr (Nat.le_of_not_lt past)
  unfold Heap.body at there
  rw [none] at there
  cases there

/-- It is enough to look at the addresses that were handed out. -/
theorem wellFormed_of_below {h : Heap im}
    (inside : ∀ addr < h.next, ∀ body ∈ h.body addr, ∀ v ∈ body.values, Inside h v)
    (side : ∀ addr < h.next, ∀ v ∈ (h.sideIvars addr).map (·.2), Inside h v)
    (older : ∀ addr < h.next, ∀ e ∈ rangeEnds h addr, rangeRank e ≤ addr) : WellFormed h where
  inside addr body there := inside addr (Heap.lt_next there) body there
  side addr v mem := by
    by_cases below : addr < h.next
    · exact side addr below v mem
    · rw [Heap.sideIvars, h.fresh addr (Nat.le_of_not_lt below)] at mem
      exact nomatch mem
  older addr start finish excl there b mem := by
    refine older addr (Heap.lt_next there) (.range b) ?_
    unfold rangeEnds Heap.range
    rwa [there]

theorem Inside.lt_next {h : Heap im} {v : RubyValue} {addr : Addr} (inside : Inside h v)
    (target : addr ∈ targetOf v) : addr < h.next := by
  obtain ⟨body, there, _⟩ := inside addr target
  exact Heap.lt_next there

/-- The value whose cell holds some contents. -/
def valueAt (addr : Addr) : Body im → RubyValue
  | .str _ => .str (.shared addr)
  | .array _ => .array addr
  | .hash _ => .hash addr
  | .range _ _ _ => .range addr
  | .object _ => .object addr
  | .proc => .reference .proc addr

section

variable {u : RubyValue} {addr : Addr}

theorem eq_valueAt {body : Body im} (target : targetOf u = some addr) (kind : fits u body = true) :
    u = valueAt addr body := by
  cases u with
  | str s =>
    cases s with
    | shared a => cases target; cases body <;> cases kind; rfl
    | frozenCopy a buf => cases target
  | array a | hash a | range a | object a => cases target; cases body <;> cases kind; rfl
  | reference k a =>
    cases k with
    | proc => cases target; cases body <;> cases kind; rfl
    | _ => cases target
  | _ => cases target

theorem same_target {h : Heap im} {w : RubyValue} (inside : Inside h u) (inside' : Inside h w)
    (target : targetOf u = some addr) (target' : targetOf w = some addr) :
    u = w := by
  obtain ⟨body, there, kind⟩ := inside addr target
  obtain ⟨body', there', kind'⟩ := inside' addr target'
  rw [there] at there'
  cases there'
  exact (eq_valueAt target kind).trans (eq_valueAt target' kind').symm

end

end Zeo.Ractor
