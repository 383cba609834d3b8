import Mathlib.Algebra.Order.Ring.Int

/-!
# Templates of `pack` and `unpack`

A template is a run of directive letters, each with modifiers for byte order and native size and a
count. `parse_template` never refuses: what a letter means is decided by the two walks that read
its directives.
-/

namespace Zeo.Pack

open List

inductive Count where
  /-- An explicit repeat or width. -/
  | fixed (n : Nat)
  /-- `*`. -/
  | star
  | one
deriving DecidableEq

structure Directive where
  kind : Char
  count : Count
  /-- Whether the most significant byte comes first. -/
  bigEndian : Bool
  /-- Whether `!` or `_` was given. -/
  native : Bool
deriving DecidableEq

/-- `char::is_whitespace`. -/
def isWhitespace (c : Char) : Bool :=
  let n := c.toNat
  (0x9 ≤ n && n ≤ 0xd) || n == 0x20 || n == 0x85 || n == 0xa0 || n == 0x1680 ||
    (0x2000 ≤ n && n ≤ 0x200a) || n == 0x2028 || n == 0x2029 || n == 0x202f || n == 0x205f ||
    n == 0x3000

def isModifier (c : Char) : Bool := c == '<' || c == '>' || c == '!' || c == '_'

/-- One round of the loop over the modifiers, on byte order and native size. -/
def modify (flags : Bool × Bool) (c : Char) : Bool × Bool :=
  if c == '<' then (false, flags.2)
  else if c == '>' then (true, flags.2)
  else (flags.1, true)

def digitsValue (digits : List Char) : Nat :=
  digits.foldl (fun n c => 10 * n + (c.toNat - 48)) 0

/-- `parse::<usize>().unwrap_or(0)`, on digits. -/
def parseCount (digits : List Char) : Nat :=
  if digitsValue digits < 2 ^ 64 then digitsValue digits else 0

def takeCount : List Char → Count × List Char
  | [] => (.one, [])
  | c :: rest =>
    if c == '*' then (.star, rest)
    else if c.isDigit then
      (.fixed (parseCount ((c :: rest).takeWhile Char.isDigit)), (c :: rest).dropWhile Char.isDigit)
    else (.one, c :: rest)

def takeDirective (kind : Char) (rest : List Char) : Directive × List Char :=
  let big := kind == 'N' || kind == 'n' || kind == 'G' || kind == 'g'
  let flags := (rest.takeWhile isModifier).foldl modify (big, false)
  let (count, rest) := takeCount (rest.dropWhile isModifier)
  let bigEndian := if kind == 'v' || kind == 'V' then false else flags.1
  (⟨kind, count, bigEndian, flags.2⟩, rest)

/-- The loop of `parse_template`; every round takes a character at least. -/
def parseFrom : Nat → List Char → List Directive
  | 0, _ => []
  | _, [] => []
  | rounds + 1, kind :: rest =>
    if isWhitespace kind then parseFrom rounds rest
    else
      let (directive, rest) := takeDirective kind rest
      directive :: parseFrom rounds rest

def parseTemplate (template : List Char) : List Directive :=
  parseFrom template.length template

end Zeo.Pack
