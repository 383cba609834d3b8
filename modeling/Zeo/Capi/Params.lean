import Zeo.Lib.SlotWriter
import Zeo.Value.Hash

/-!
# Parameter descriptors and keyword arguments

A binder routes the arguments of a dynamic call into the slots that the callee's descriptor names:
required, optional, rest, post, keywords, keyword rest. Only a named rest has a slot. Keywords
travel as a trailing Hash that the call site has marked. Both binders read what is here.
-/

namespace Zeo.Capi

open Zeo.Enc Zeo.Lib Zeo.Value

/-- `PARAM_STAR_NONE`, `PARAM_STAR_ANON`, `PARAM_STAR_NAMED`. -/
inductive Star where
  | none
  | anon
  | named
deriving DecidableEq

def Star.slots : Star → Nat
  | .named => 1
  | _ => 0

/-- `KwParamC`: a keyword parameter, in declared order. -/
structure KwParam where
  name : String
  required : Bool

/-- `ParamDescC`, as the compiler emits it. -/
structure ParamDesc where
  nreq : Nat
  nopt : Nat
  npost : Nat
  rest : Star
  kwrest : Star
  /-- `**nil`. -/
  noKeywords : Bool
  /-- The rest is a trailing comma of a block's parameter list. -/
  implicitRest : Bool
  kws : List KwParam
  name : String
  /-- `layout_of` refuses more slots than the presence word has bits. -/
  fits : nreq + nopt + rest.slots + npost + kws.length + kwrest.slots ≤ 64
  /-- `**nil` stands where a keyword list would. -/
  nilAlone : noKeywords = true → kws = [] ∧ kwrest = .none
  trailingComma : implicitRest = true → rest = .anon

theorem noTrailingComma : false = true → Star.none = .anon := fun present => nomatch present

def ParamDesc.slotCount (desc : ParamDesc) : Nat :=
  desc.nreq + desc.nopt + desc.rest.slots + desc.npost + desc.kws.length + desc.kwrest.slots

def ParamDesc.kwNames (desc : ParamDesc) : List String := desc.kws.map (·.name)

def ParamDesc.min (desc : ParamDesc) : Nat := desc.nreq + desc.npost

/-- The greatest number of positionals without a rest. -/
def ParamDesc.max (desc : ParamDesc) : Nat := desc.nreq + desc.nopt + desc.npost

/-- What a slot is given: an argument, a fresh array or a fresh hash. -/
inductive SlotValue where
  | value (v : RubyValue)
  /-- `array_new` of these elements. -/
  | array (elems : List RubyValue)
  /-- `hash_new` of these pairs. -/
  | hash (pairs : Pairs)

def SlotValue.empty : SlotValue := .value .nil

/-- `Symbol::name_str`. A symbol outside the default encodings reads as whatever text its bytes
decode to. -/
def nameStr (lossy : EncodingId → List UInt8 → String) : Symbol → String
  | .text name => name
  | .keyed enc bytes => lossy enc bytes

def wrongArity (given : Nat) (expected : String) : String :=
  "wrong number of arguments (given " ++ toString given ++ ", expected " ++ expected ++ ")"

def expectedArity (desc : ParamDesc) (hasRest : Bool) : String :=
  if hasRest then toString desc.min ++ "+"
  else if desc.nopt = 0 then toString desc.min
  else toString desc.min ++ ".." ++ toString desc.max

def kwNamesError (kind : String) (names : List String) : String :=
  kind ++ " keyword" ++ (if names.length = 1 then "" else "s") ++ ": " ++
    String.intercalate ", " (names.map (":" ++ ·))

section Keywords

variable {eql : UserEql} {im : ValueMap eql}
variable (lossy : EncodingId → List UInt8 → String) (tables : Addr → RHashData im)

def trailingHash (args : List RubyValue) : Option (RHashData im) :=
  match args.getLast? with
  | some (.hash addr) => some (tables addr)
  | _ => none

def markedHash (args : List RubyValue) : Option (RHashData im) :=
  (trailingHash tables args).filter (·.kwMarked)

def keyName : RubyValue → Option String
  | .symbol s => some (nameStr lossy s)
  | _ => none

def lookupName (pairs : Pairs) (name : String) : Option RubyValue :=
  pairs.findSome? fun pair => if keyName lossy pair.1 = some name then some pair.2 else none

def declared (names : List String) (key : RubyValue) : Bool :=
  match keyName lossy key with
  | some name => names.contains name
  | none => false

/-- The result of `bind_dynamic_kwargs`. -/
structure BoundKwargs where
  positional : List RubyValue
  required : List RubyValue
  optional : List (Option RubyValue)
  rest : Pairs

/-- Two fallible steps in sequence succeed exactly when both do. -/
theorem except_bind_ok_iff {α β : Type} (x : Except String α) (f : α → Except String β) (b : β) :
    (x >>= f) = .ok b ↔ ∃ a, x = .ok a ∧ f a = .ok b := by
  cases x with
  | error message | ok a => simp [Bind.bind, Except.bind]

/-- The last loop of `bind_dynamic_kwargs`: the pairs for the rest and the unknown names. -/
def sortPairs (method : String) (names : List String) (hasKwrest : Bool) :
    Pairs → Except String (Pairs × List String)
  | [] => .ok ([], [])
  | (key, value) :: later =>
    match keyName lossy key with
    | some name =>
      if names.contains name then sortPairs method names hasKwrest later
      else do
        let (rest, unknown) ← sortPairs method names hasKwrest later
        if hasKwrest then .ok ((key, value) :: rest, unknown) else .ok (rest, name :: unknown)
    | none =>
      if hasKwrest then do
        let (rest, unknown) ← sortPairs method names hasKwrest later
        .ok ((key, value) :: rest, unknown)
      else .error ("wrong number of arguments (in '" ++ method ++ "')")

def bindDynamicKwargs (method : String) (args : List RubyValue) (required optional : List String)
    (hasKwrest : Bool) : Except String BoundKwargs :=
  let kwHash := markedHash tables args
  let positional := if kwHash.isSome then args.dropLast else args
  let pairs := (kwHash.map hashPairsSnapshot).getD []
  let missing := required.filter fun name => (lookupName lossy pairs name).isNone
  if missing ≠ [] then .error (kwNamesError "missing" missing)
  else do
    let (rest, unknown) ← sortPairs lossy method (required ++ optional) hasKwrest pairs
    if unknown ≠ [] then .error (kwNamesError "unknown" unknown)
    else .ok {
      positional
      required := required.filterMap (lookupName lossy pairs)
      optional := optional.map (lookupName lossy pairs)
      rest }

def rejectMarkedKwargs (args : List RubyValue) : Except String Unit :=
  if (markedHash tables args).isSome then .error "no keywords accepted" else .ok ()

end Keywords

end Zeo.Capi
