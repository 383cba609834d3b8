import Mathlib.Algebra.Order.Ring.Int
import Zeo.Enc.Table

/-!
# Ruby values

A value is an immediate or a reference. Strings, arrays, hashes and the other heap kinds are
named by address, so that identity can be told from structure. What a reference leads to is
read through a `World`: the bytes of strings, the elements of arrays, and what the classes of a
program answer when the runtime sends `hash` to an object.
-/

namespace Zeo.Value

open Zeo.Enc

abbrev Addr := Nat

/-- How `eql?` answers for two objects of the program. -/
abbrev UserEql := Addr → Addr → Bool

/-- A machine integer, `i64`. -/
abbrev I64 := { i : Int // -2 ^ 63 ≤ i ∧ i < 2 ^ 63 }

/-- A symbol, by what the interner keys it on: text for the default encodings, the encoding
and the exact bytes for every other. -/
inductive Symbol where
  | text (name : String)
  | keyed (enc : EncodingId) (bytes : List UInt8)
deriving DecidableEq

/-- `StrBuf`: the bytes of a string and the encoding they are read in. -/
structure StrBuf where
  bytes : List UInt8
  enc : EncodingId
deriving DecidableEq

/-- `StrBuf::ascii_only`: every byte is a seven-bit character of the encoding. -/
def StrBuf.asciiOnly (buf : StrBuf) : Bool :=
  EncodingId.asciiCompatible buf.enc && buf.bytes.all (· < 0x80)

/-- `StrBuf::hash_key_tag`: seven-bit strings share one tag, others carry their encoding's. -/
def StrBuf.hashKeyTag (buf : StrBuf) : Nat := if buf.asciiOnly then 0 else buf.enc.val + 1

/-- A string object. A frozen copy made by the runtime never changes, so it carries its
buffer; any other string is read through the world. -/
inductive RStr where
  | shared (addr : Addr)
  /-- A frozen copy made when a hash stored a key. -/
  | frozenCopy (addr : Addr) (buf : StrBuf)
deriving DecidableEq

def RStr.addr : RStr → Addr
  | .shared addr => addr
  | .frozenCopy addr _ => addr

/-- The kinds that a hash compares by reference only. -/
inductive RefKind where
  | proc
  | fiber
  | enumerator
  | yielder
  | thread
  | mutex
  | queue
  | ractor
deriving DecidableEq

inductive RubyValue where
  | nil
  | bool (b : Bool)
  | int (i : I64)
  | bigInt (addr : Addr)
  | float (bits : UInt64)
  | rational (addr : Addr)
  | complex (addr : Addr)
  | symbol (s : Symbol)
  | str (s : RStr)
  | array (addr : Addr)
  | hash (addr : Addr)
  | range (addr : Addr)
  | object (addr : Addr)
  | regexp (addr : Addr)
  | matchData (addr : Addr)
  /-- A kind with no contents a hash reads. -/
  | reference (kind : RefKind) (addr : Addr)
  | classRef (id : Nat)
deriving DecidableEq

/-- Keys and their values, in order. -/
abbrev Pairs := List (RubyValue × RubyValue)

/-- Values by name, in order. -/
abbrev Fields := List (String × RubyValue)

/-- What a send to a method of the program came to. -/
inductive UserCall where
  | absent
  | returned (value : RubyValue)
  | raised

structure RegexpData where
  source : String
  /-- The `i` flag. -/
  ignoreCase : Bool
  /-- The `x` flag. -/
  extended : Bool
  /-- The `m` flag. -/
  multiline : Bool

structure MatchFields where
  haystack : List UInt8
  regexp : RegexpData
  groups : List (Option (Nat × Nat))

structure World where
  /-- How many projections the native stack holds below the first. -/
  stackDepth : Nat
  symbolId : Symbol → Nat
  str : Addr → StrBuf
  strFrozen : Addr → Bool
  bigInt : Addr → Int
  rational : Addr → Int × Int
  complex : Addr → RubyValue × RubyValue
  array : Addr → List RubyValue
  hashPairs : Addr → Pairs
  /-- The ends of a range, `nil` for an open end, and whether it excludes its last. -/
  range : Addr → RubyValue × RubyValue × Bool
  regexp : Addr → RegexpData
  matchData : Addr → MatchFields
  /-- What the object's own `hash` answers. -/
  userHash : Addr → UserCall
  builtinPayload : Addr → Option RubyValue

def World.strBuf (w : World) : RStr → StrBuf
  | .shared addr => w.str addr
  | .frozenCopy _ buf => buf

/-- `Freezable::is_frozen` on a string object. -/
def World.isFrozen (w : World) : RStr → Bool
  | .shared addr => w.strFrozen addr
  | .frozenCopy _ _ => true

end Zeo.Value
