import Zeo.Marshal.Format
import Zeo.Value.Hash

/-!
# The heap and the runtime a dump reads and a load writes

Heap values are named by address. A cell holds the contents of one value and the instance
variables hung on it. What Marshal asks of the rest of the runtime, such as the class table,
sends to methods of the program and the constructors of other builtins, is a `Runtime`.
-/

namespace Zeo.Marshal

open Zeo.Enc Zeo.Lib Zeo.Value

abbrev ClassId := Nat

/-- The builtin classes whose instances are kinds of value of their own: `Integer` to `Ractor`,
`Class`, `Module`, `Enumerator`, `Rational`, `Complex`, `Enumerator::Yielder`, `SizedQueue`. -/
def valueClasses : List ClassId :=
  [1, 2, 3, 4, 5, 6, 7, 8, 9, 10, 11, 12, 13, 14, 15, 16, 17, 18, 20, 21, 23, 27, 28, 31, 64]

abbrev ObjectClass := { cid : ClassId // cid ∉ valueClasses }

section

variable {eql : UserEql} (im : ValueMap eql)

/-- The payloads of an object that Marshal tells apart. -/
inductive ObjectKind where
  | plain
  | time
  /-- A `Set`, by its backing hash. -/
  | set (hash : Addr)
  | struct (members : List (Symbol × RubyValue))
  /-- An instance of a builtin's subclass, by the builtin it wraps. -/
  | wrapped (payload : RubyValue)

inductive Body where
  | str (buf : Value.StrBuf) (frozen : Bool)
  | array (elems : List RubyValue)
  | hash (table : RHashData im)
  /-- A range; an open end is absent. -/
  | range (start finish : Option RubyValue) (excl : Bool)
  | regexp (data : RegexpData)
  | bigInt (n : Int)
  | rational (num den : Int)
  | complex (real imag : RubyValue)
  | object (cls : ObjectClass) (kind : ObjectKind)

structure Cell where
  body : Body im
  /-- Its instance variables in order, by name without the at sign. -/
  ivars : Fields

/-- The heap. Addresses are handed out upwards and the null address never is. -/
structure Heap where
  cell : Addr → Option (Cell im)
  next : Addr
  fresh : ∀ addr, next ≤ addr → cell addr = none
  null : cell 0 = none
  /-- The null address is never handed out. -/
  positive : 0 < next

end

variable {eql : UserEql} {im : ValueMap eql}

namespace Heap

variable (h : Heap im)

def alloc (body : Body im) : Addr × Heap im :=
  (h.next,
    { cell := fun addr => if addr = h.next then some ⟨body, []⟩ else h.cell addr
      next := h.next + 1
      fresh := by
        intro addr past
        rw [if_neg (Nat.ne_of_gt (Nat.lt_of_succ_le past))]
        exact h.fresh addr (Nat.le_of_succ_le past)
      null := by
        rw [if_neg (Nat.ne_of_lt h.positive)]
        exact h.null
      positive := Nat.succ_pos _ })

variable (addr : Addr)

def update (f : Cell im → Cell im) : Heap im where
  cell a := if a = addr then (h.cell a).map f else h.cell a
  next := h.next
  fresh a past := by
    rw [h.fresh a past]
    simp
  null := by
    rw [h.null]
    simp
  positive := h.positive

def reserve (bound : Addr) : Heap im :=
  { h with
    next := max h.next bound
    fresh := fun addr past => h.fresh addr (le_trans (le_max_left _ _) past)
    positive := lt_of_lt_of_le h.positive (le_max_left _ _) }

def body : Option (Body im) := (h.cell addr).map (·.body)

def strBuf : RStr → Value.StrBuf
  | .frozenCopy _ buf => buf
  | .shared addr =>
    match h.body addr with
    | some (.str buf _) => buf
    | _ => ⟨[], ascii8bit⟩

def elems : List RubyValue :=
  match h.body addr with
  | some (.array elems) => elems
  | _ => []

def table : RHashData im :=
  match h.body addr with
  | some (.hash table) => table
  | _ => RHashData.new .nil

def range : Option RubyValue × Option RubyValue × Bool :=
  match h.body addr with
  | some (.range start finish excl) => (start, finish, excl)
  | _ => (none, none, false)

def regexp : RegexpData :=
  match h.body addr with
  | some (.regexp data) => data
  | _ => ⟨"", false, false, false⟩

def bigInt : Int :=
  match h.body addr with
  | some (.bigInt n) => n
  | _ => 0

def rational : Int × Int :=
  match h.body addr with
  | some (.rational num den) => (num, den)
  | _ => (0, 1)

def complex : RubyValue × RubyValue :=
  match h.body addr with
  | some (.complex real imag) => (real, imag)
  | _ => (.nil, .nil)

def object : ObjectClass × ObjectKind :=
  match h.body addr with
  | some (.object cls kind) => (cls, kind)
  | _ => (⟨0, by decide⟩, .plain)

def ivarsAt : Fields :=
  ((h.cell addr).map (·.ivars)).getD []

end Heap

/-- The instance variables hung on a value other than an object: those of the kinds
`value_ivars` keeps. A frozen copy of a key has none. -/
def valueIvars (h : Heap im) : RubyValue → Fields
  | .str (.shared addr) => h.ivarsAt addr
  | .array addr => h.ivarsAt addr
  | .hash addr => h.ivarsAt addr
  | .regexp addr => h.ivarsAt addr
  | .matchData addr => h.ivarsAt addr
  | .reference _ addr => h.ivarsAt addr
  | _ => []

def setIvar (ivars : Fields) (name : String) (v : RubyValue) : Fields :=
  if ivars.any (·.1 == name) then
    ivars.map fun pair => if pair.1 = name then (name, v) else pair
  else ivars ++ [(name, v)]

/-- The rest of the runtime, as far as Marshal asks it. -/
structure Runtime (im : ValueMap eql) where
  /-- `String::from_utf8_lossy` on bytes that are not text. -/
  lossy : List UInt8 → String
  keyedName : EncodingId → List UInt8 → String
  floatToMarshal : UInt64 → String
  parseMarshalFloat : String → UInt64
  className : ClassId → Option String
  /-- `class_is_module`, false for a class it does not know. -/
  classIsModule : ClassId → Bool
  classIdByName : String → Option ClassId
  /-- `ancestors_of_value`. -/
  ancestors : ClassId → List ClassId
  exceptionClass : ClassId
  /-- `class_id` of a value that is no object. -/
  builtinClassId : RubyValue → ClassId
  /-- The names `instance_method_names` lists. -/
  instanceMethodNames : ClassId → List Symbol
  singletonMethodNames : Heap im → RubyValue → List Symbol
  extendedModules : Heap im → RubyValue → List ClassId
  /-- `responds_to`, private methods included. -/
  respondsTo : ClassId → String → Bool
  /-- `send_value`: the answer or the raise, and what it did to the heap. -/
  sendValue : Heap im → RubyValue → String → List RubyValue → Except String RubyValue × Heap im
  /-- `time_mdump`: the bytes and the named values of a time. -/
  timeMdump : Heap im → Addr → List UInt8 × Fields
  /-- `time_mload`. -/
  timeMload : Heap im → List UInt8 → Fields →
    Except String (RubyValue × Heap im)
  marshalAllocate : Heap im → ClassId → Option (RubyValue × Heap im)
  /-- The members of a Struct class, by `meta_of`. -/
  structMembers : ClassId → Option (List Symbol)
  structConstruct : Heap im → ClassId → List RubyValue → Except String (RubyValue × Heap im)
  /-- `value_subclass::marshal_alloc`. -/
  subclassAlloc : Heap im → ClassId → RubyValue → Option (Addr × Heap im)
  /-- The check `regexp_new` makes when it compiles a source. -/
  regexpNew : RegexpData → Except String Unit
  setFrom : Heap im → List RubyValue → RubyValue × Heap im
  encodingValue : EncodingId → RubyValue
  setExceptionMessage : Heap im → RubyValue → RubyValue → Heap im
  /-- `is_a` of the class of a value and `Numeric`. -/
  isNumeric : Heap im → RubyValue → Bool
  /-- `convert_name_of`, for an error. -/
  convertName : Heap im → RubyValue → String
  /-- `class_name_of`, for an error. -/
  classNameOf : Heap im → RubyValue → String
  /-- How many projections of a key the native stack holds. -/
  stackDepth : Nat
  symbolId : Symbol → Nat
  /-- What an object's own `hash` answers. -/
  userHash : Heap im → Addr → UserCall

variable (rt : Runtime im)

/-- What a hash reads when it projects a key of this heap. -/
def Heap.world (h : Heap im) : World where
  stackDepth := rt.stackDepth
  symbolId := rt.symbolId
  str addr := h.strBuf (.shared addr)
  strFrozen addr :=
    match h.body addr with
    | some (.str _ frozen) => frozen
    | _ => false
  bigInt := h.bigInt
  rational := h.rational
  complex := h.complex
  array := h.elems
  hashPairs addr := hashPairsSnapshot (h.table addr)
  range addr :=
    let (start, finish, excl) := h.range addr
    (start.getD .nil, finish.getD .nil, excl)
  regexp := h.regexp
  matchData _ := ⟨[], ⟨"", false, false, false⟩, []⟩
  userHash := rt.userHash h
  builtinPayload addr :=
    match h.object addr with
    | (_, .wrapped payload) => some payload
    | _ => none

/-- `Symbol::name`. -/
def Runtime.symbolName : Symbol → String
  | .text name => name
  | .keyed enc bytes => rt.keyedName enc bytes

/-- `class_id` of a value. -/
def Runtime.classId (h : Heap im) : RubyValue → ClassId
  | .object addr => (h.object addr).1.val
  | v => rt.builtinClassId v

inductive Raised where
  /-- `ArgumentError`. -/
  | argument (message : String)
  /-- `TypeError`. -/
  | type (message : String)
  /-- `ZeroDivisionError`. -/
  | zeroDivision (message : String)
  /-- Whatever the program or another part of the runtime raised. -/
  | program (message : String)
deriving DecidableEq

inductive Fault where
  /-- A slice that starts at the cursor and ends before it, by a length read there. -/
  | slice (pos : Nat) (len : Int)
  /-- A buffer past what can be allocated, for a number of shorts. -/
  | capacity (shorts : Int)
deriving DecidableEq

/-- How a dump or a load stops short. -/
inductive Failure where
  | raised (exception : Raised)
  /-- The native stack is exhausted: the process dies. -/
  | crash
  | panicked (fault : Fault)
  /-- The recursion of the model was given too small a bound. -/
  | fuel
deriving DecidableEq

/-- An exception, or the end of the native stack. -/
def Failure.isUsual : Failure → Bool
  | .raised _ => true
  | .crash => true
  | .panicked _ => false
  | .fuel => false

/-- `arg_error!`. -/
def argError (message : String) : Failure := .raised (.argument message)

/-- `type_error!`. -/
def typeError (message : String) : Failure := .raised (.type message)

def Heap.empty : Heap im where
  cell _ := none
  next := 1
  fresh _ _ := rfl
  null := rfl
  positive := Nat.one_pos

/-- The names of the classes of a program that has a class `Point` and a Struct `Pair`. -/
def smallNames : List (ClassId × String) := [(200, "Point"), (201, "Pair")]

/-- The runtime of that program, none of whose methods Marshal calls. -/
def smallRuntime : Runtime plainMap where
  lossy _ := ""
  keyedName _ _ := ""
  floatToMarshal _ := "0"
  parseMarshalFloat _ := 0
  className cid := (smallNames.find? (·.1 == cid)).map (·.2)
  classIsModule _ := false
  classIdByName name := (smallNames.find? (·.2 == name)).map (·.1)
  ancestors _ := []
  exceptionClass := 0
  builtinClassId _ := 0
  instanceMethodNames _ := []
  singletonMethodNames _ _ := []
  extendedModules _ _ := []
  respondsTo _ _ := false
  sendValue h _ _ _ := (.ok .nil, h)
  timeMdump _ _ := ([], [])
  timeMload h _ _ := .ok (.nil, h)
  marshalAllocate h cid :=
    if cid = 200 then
      let (addr, h) := h.alloc (.object ⟨200, by decide⟩ .plain)
      some (.object addr, h)
    else none
  structMembers cid := if cid = 201 then some [.text "left", .text "right"] else none
  structConstruct h _ values :=
    let (addr, h) := h.alloc (.object ⟨201, by decide⟩
      (.struct ([.text "left", .text "right"].zip values)))
    .ok (.object addr, h)
  subclassAlloc _ _ _ := none
  regexpNew _ := .ok ()
  setFrom h _ := (.nil, h)
  encodingValue _ := .nil
  setExceptionMessage h _ _ := h
  isNumeric _ _ := false
  convertName _ _ := ""
  classNameOf _ _ := ""
  stackDepth := 100
  symbolId _ := 0
  userHash _ _ := .absent

end Zeo.Marshal
