import Zeo.Marshal.Heap
import Mathlib.Data.Nat.Digits.Defs

/-!
# The writer

`Marshal.dump` walks a value and appends to a byte stream. A symbol is written once and named by
index after that; so is every value with an identity, through a table of links that also counts
values no link can name. The state carries what its tables mean: the owner of every index, where
in the stream the owner begins, and what each index that was written names.
-/

namespace Zeo.Marshal

open Zeo.Enc Zeo.Lib Zeo.Value List

/-- `ptr_of`: the address of a string, array, hash, regexp or object, and zero for every other
kind. -/
def ptrOf : RubyValue → Nat
  | .str s => s.addr
  | .array addr => addr
  | .hash addr => addr
  | .regexp addr => addr
  | .object addr => addr
  | _ => 0

/-- The key a value is linked by: a class has its id. -/
def linkKey : RubyValue → Nat
  | .classRef cid => cid
  | v => ptrOf v

/-- Two values of one kind, and of a kind that is known by its address. -/
def alike : RubyValue → RubyValue → Bool
  | .str (.shared _), .str (.shared _) | .array _, .array _ | .hash _, .hash _
  | .regexp _, .regexp _ | .object _, .object _ => true
  | .str (.frozenCopy _ buf), .str (.frozenCopy _ other) => buf = other
  | _, _ => false

theorem eq_of_linkKey {u v : RubyValue} (same : linkKey u = linkKey v) (kind : alike u v = true) :
    u = v := by
  unfold alike at kind
  split at kind <;> simp_all [linkKey, ptrOf, RStr.addr]

inductive Owner where
  | linked (v : RubyValue)
  | encoding (name : String)
  | unlinked

/-- One link index: where its value begins in the stream, and the value. -/
structure Entry where
  /-- The position of the value's first byte. -/
  offset : Nat
  owner : Owner

/-- An index the writer wrote in place of a value or a symbol. -/
inductive Citation where
  /-- The value in whose place it stands. -/
  | object (v : RubyValue) (index : Nat)
  | encoding (name : String) (index : Nat)
  | symbol (name : String) (index : Nat)

/-- The index leads to what was written in its place: to the value itself, where the two are of one
kind and known by their address. -/
def Citation.Names (entries : List Entry) (symbols : List String) : Citation → Prop
  | .object v index => ∃ offset u, entries[index]? = some ⟨offset, .linked u⟩ ∧
      linkKey u = linkKey v ∧ (alike u v = true → u = v)
  | .encoding name index => ∃ offset, entries[index]? = some ⟨offset, .encoding name⟩
  | .symbol name index => symbols[index]? = some name

theorem getElem?_append_of_some {α : Type} {items : List α} {index : Nat} {item : α}
    (there : items[index]? = some item) (more : List α) : (items ++ more)[index]? = some item := by
  rw [List.getElem?_append_left (List.getElem?_eq_some_iff.mp there).1, there]

theorem Citation.Names.append {entries : List Entry} {symbols : List String} {c : Citation}
    (names : c.Names entries symbols) (more : List Entry) (later : List String) :
    c.Names (entries ++ more) (symbols ++ later) := by
  cases c with
  | object v index =>
    obtain ⟨offset, u, there, same⟩ := names
    exact ⟨offset, u, getElem?_append_of_some there more, same⟩
  | encoding name index =>
    obtain ⟨offset, there⟩ := names
    exact ⟨offset, getElem?_append_of_some there more⟩
  | symbol name index => exact getElem?_append_of_some names later

structure Stamp where
  /-- The position of the token's first byte. -/
  pos : Nat
  links : Nat
  symbols : Nat
deriving DecidableEq

section State

variable {eql : UserEql} (im : ValueMap eql)

/-- `Writer`. The fields from `pos` on are not in the source: `pos` is the length of its output,
and the others say what its tables stand for. -/
structure Writer where
  heap : Heap im
  symbols : List String
  links : Nat → Option Nat
  encLinks : String → Option Nat
  nextLink : Nat
  limit : Option Int
  depth : Int
  pos : Nat
  start : Nat
  entries : List Entry
  cited : List Citation
  /-- The sizes of the tables at the tokens written so far. -/
  stamps : List Stamp
  counted : entries.length = nextLink
  linked : ∀ key index, links key = some index →
    ∃ offset v, entries[index]? = some ⟨offset, .linked v⟩ ∧ linkKey v = key
  named : ∀ name index, encLinks name = some index →
    ∃ offset, entries[index]? = some ⟨offset, .encoding name⟩
  cites : ∀ c ∈ cited, c.Names entries symbols

end State

variable {eql : UserEql} {im : ValueMap eql}

namespace Writer

def new (heap : Heap im) (limit : Option Int) : Writer im where
  heap := heap
  symbols := []
  links _ := none
  encLinks _ := none
  nextLink := 0
  limit := limit
  depth := 0
  pos := 0
  start := 0
  entries := []
  cited := []
  stamps := []
  counted := rfl
  linked _ _ found := nomatch found
  named _ _ found := nomatch found
  cites _ mem := nomatch mem

variable (w : Writer im)

def stamp : Stamp := ⟨w.pos, w.nextLink, w.symbols.length⟩

def advance (count : Nat) : Writer im :=
  { w with pos := w.pos + count, stamps := w.stamps ++ [w.stamp] }

/-- Hand the next link index to a value that no link will name. -/
def take : Writer im :=
  { w with
    nextLink := w.nextLink + 1
    entries := w.entries ++ [⟨w.start, .unlinked⟩]
    counted := by rw [length_append, w.counted]; rfl
    linked := fun key index found =>
      let ⟨offset, v, there, own⟩ := w.linked key index found
      ⟨offset, v, getElem?_append_of_some there _, own⟩
    named := fun name index found =>
      let ⟨offset, there⟩ := w.named name index found
      ⟨offset, getElem?_append_of_some there _⟩
    cites := fun c mem => by
      simpa using (w.cites c mem).append [⟨w.start, .unlinked⟩] [] }

/-- `register_link`: hand the next link index to a value. -/
def register (v : RubyValue) : Writer im :=
  { w with
    links := fun other => if other = linkKey v then some w.nextLink else w.links other
    nextLink := w.nextLink + 1
    entries := w.entries ++ [⟨w.start, .linked v⟩]
    counted := by rw [length_append, w.counted]; rfl
    linked := fun other index found => by
      by_cases same : other = linkKey v
      · rw [if_pos same, Option.some.injEq] at found
        refine ⟨w.start, v, ?_, same.symm⟩
        rw [← found, ← w.counted]
        simp
      · rw [if_neg same] at found
        obtain ⟨offset, u, there, own⟩ := w.linked other index found
        exact ⟨offset, u, getElem?_append_of_some there _, own⟩
    named := fun name index found =>
      let ⟨offset, there⟩ := w.named name index found
      ⟨offset, getElem?_append_of_some there _⟩
    cites := fun c mem => by
      simpa using (w.cites c mem).append [⟨w.start, .linked v⟩] [] }

/-- Hand the next link index to the name of an encoding. -/
def nameEncoding (name : String) : Writer im :=
  { w with
    encLinks := fun other => if other = name then some w.nextLink else w.encLinks other
    nextLink := w.nextLink + 1
    entries := w.entries ++ [⟨w.start, .encoding name⟩]
    counted := by rw [length_append, w.counted]; rfl
    linked := fun key index found =>
      let ⟨offset, v, there, own⟩ := w.linked key index found
      ⟨offset, v, getElem?_append_of_some there _, own⟩
    named := fun other index found => by
      by_cases same : other = name
      · rw [if_pos same, Option.some.injEq] at found
        refine ⟨w.start, ?_⟩
        rw [← found, ← w.counted, same]
        simp
      · rw [if_neg same] at found
        obtain ⟨offset, there⟩ := w.named other index found
        exact ⟨offset, getElem?_append_of_some there _⟩
    cites := fun c mem => by
      simpa using (w.cites c mem).append [⟨w.start, .encoding name⟩] [] }

def intern (name : String) : Writer im :=
  { w with
    symbols := w.symbols ++ [name]
    cites := fun c mem => by simpa using (w.cites c mem).append [] [name] }

def cite (c : Citation) (names : c.Names w.entries w.symbols) : Writer im :=
  { w with
    cited := w.cited ++ [c]
    cites := fun other mem => by
      rcases mem_append.mp mem with earlier | last
      · exact w.cites other earlier
      · rw [mem_singleton.mp last]
        exact names }

end Writer

abbrev W (im : ValueMap eql) (α : Type) : Type :=
  Enc Failure (Writer im) Token α

def ascii (c : Char) : UInt8 := UInt8.ofNat c.toNat

def emit (token : Token) : W im Unit :=
  Enc.put (fun _ => token) fun w => w.advance token.letters.length

def tag (c : Char) : W im Unit := emit (.byte (ascii c))

def beginValue : W im Unit :=
  Enc.put (fun w => .start (w.entries.map (·.offset)) w.symbols) fun w => { w with start := w.pos }

def writeLong (x : Int) : W im Unit := emit (.long x)

def writeBytes (bytes : List UInt8) : W im Unit := do
  writeLong bytes.length
  emit (.raw bytes)

def findSymbol (w : Writer im) (name : String) : Option { i : Nat // w.symbols[i]? = some name } :=
  if found : name ∈ w.symbols then
    some ⟨w.symbols.idxOf name, by
      rw [List.getElem?_eq_some_iff]
      exact ⟨idxOf_lt_length_of_mem found, getElem_idxOf _⟩⟩
  else none

def writeSymbol (name : String) : W im Unit := do
  let w ← Enc.get
  match findSymbol w name with
  | some ⟨index, names⟩ =>
    Enc.modify fun _ => w.cite (.symbol name index) names
    tag ';'
    writeLong index
  | none =>
    Enc.modify fun w => w.intern name
    tag ':'
    writeBytes (asBytes name)

/-- `check_link`, before what is written when it misses. -/
def orLink (v : RubyValue) (body : W im Unit) : W im Unit := do
  let w ← Enc.get
  match found : w.links (linkKey v) with
  | some index =>
    Enc.modify fun _ => w.cite (.object v index)
      (let ⟨offset, u, there, same⟩ := w.linked _ index found
       ⟨offset, u, there, same, eq_of_linkKey same⟩)
    tag '@'
    writeLong index
  | none => body

def registerLink (v : RubyValue) : W im Unit := Enc.modify fun w => w.register v

/-- `next_link += 1` for a value no link names. -/
def takeLink : W im Unit := Enc.modify fun w => w.take

def writeEncodingName (name : String) : W im Unit := do
  let w ← Enc.get
  match found : w.encLinks name with
  | some index =>
    Enc.modify fun _ => w.cite (.encoding name index) (w.named name index found)
    tag '@'
    writeLong index
  | none =>
    Enc.modify fun w => w.nameEncoding name
    tag '\"'
    writeBytes (asBytes name)

/-- The magnitude of an integer in little-endian bytes, as `BigInt::to_bytes_le` gives it. -/
def toBytesLe (n : Int) : List UInt8 :=
  if n = 0 then [0] else (Nat.digits 256 n.natAbs).map UInt8.ofNat

def bignumBytes (n : Int) : List UInt8 :=
  if (toBytesLe n).length % 2 = 1 then toBytesLe n ++ [0] else toBytesLe n

def writeBignum (n : Int) : W im Unit := do
  takeLink
  tag 'l'
  tag (if n < 0 then '-' else '+')
  writeLong ((bignumBytes n).length / 2 : Nat)
  emit (.raw (bignumBytes n))

/-- `regexp_options`: the flags as one byte. -/
def regexpOptions (data : RegexpData) : UInt8 := UInt8.ofNat data.flags

def fitsI32 (n : Int) : Bool := -2 ^ 31 ≤ n && n < 2 ^ 31

/-- `bigint_to_value`, with a new cell for an integer past the fixnums. -/
def bigintToValue (h : Heap im) (n : Int) : RubyValue × Heap im :=
  if range : -2 ^ 63 ≤ n ∧ n < 2 ^ 63 then (.int ⟨n, range⟩, h)
  else
    let (addr, h) := h.alloc (.bigInt n)
    (.bigInt addr, h)

/-- `Iv`: an instance variable of an `I` wrapper. -/
inductive Iv where
  /-- UTF-8 or US-ASCII. -/
  | encBool (b : Bool)
  | encName (name : String)
  /-- A variable of the program, its at sign included. -/
  | named (name : String) (v : RubyValue)

def encodingIvar (enc : EncodingId) : List Iv :=
  if enc = utf8 then [.encBool true]
  else if enc = usAscii then [.encBool false]
  else if enc = ascii8bit then []
  else [.encName (EncodingId.name enc)]

def namedIvars (ivars : Fields) : List Iv :=
  ivars.map fun pair => .named ("@" ++ pair.1) pair.2

def ownIvars (h : Heap im) (v : RubyValue) : List Iv := namedIvars (valueIvars h v)

/-- The tag of an `I` wrapper, if there is one. -/
def openWrapper (ivars : List Iv) : W im Unit := if ivars.isEmpty then pure () else tag 'I'

/-- One round of `write_ivars`. -/
def writeIvar (write : RubyValue → W im Unit) : Iv → W im Unit
  | .encBool b => do
    writeSymbol "E"
    beginValue
    tag (if b then 'T' else 'F')
  | .encName name => do
    writeSymbol "encoding"
    beginValue
    writeEncodingName name
  | .named name v => do
    writeSymbol name
    write v

def writeIvars (write : RubyValue → W im Unit) (ivars : List Iv) : W im Unit :=
  if ivars.isEmpty then pure ()
  else do
    writeLong ivars.length
    Enc.each (writeIvar write) ivars

/-- `CANT_DUMP`: `IO`, `File`, `MatchData`, `Queue`, `ConditionVariable`. -/
def cantDump : List ClassId := [33, 35, 13, 17, 44]

/-- `NO_DUMP_DATA`: `Dir`, `Method`, `UnboundMethod`, `Binding`, `Proc`, `Thread`, `Fiber`,
`Mutex`, `ThreadGroup`, `WeakMap`, `Enumerator`, `StringIO`, `StringScanner`, `Zlib::Deflate`,
`Zlib::Inflate` and the digests. -/
def noDumpData : List ClassId :=
  [36, 34, 45, 141, 11, 15, 14, 16, 80, 83, 23, 47, 48, 100, 101, 51, 52, 108, 53, 107, 54]

def refuseUndumpable (rt : Runtime im) (h : Heap im) (v : RubyValue) (cid : ClassId) :
    Except Failure Unit :=
  let fromModules := (rt.extendedModules h v).flatMap rt.instanceMethodNames
  if (rt.singletonMethodNames h v).any fun name => !fromModules.contains name then
    .error (typeError "singleton can't be dumped")
  else if (rt.ancestors cid).any fun a => cantDump.contains a then
    .error (typeError ("can't dump " ++ (rt.className cid).getD ""))
  else if (rt.ancestors cid).any fun a => noDumpData.contains a then
    .error (typeError ("no _dump_data is defined for class " ++ (rt.className cid).getD ""))
  else .ok ()

def nameable (rt : Runtime im) (cid : ClassId) : Except Failure String :=
  match (rt.className cid).filter fun name => !name.startsWith "#" with
  | some name => .ok name
  | none =>
    let rendered := (rt.className cid).getD ""
    if rendered.startsWith "#<Class:" && !rendered.startsWith "#<Class:0x" then
      .error (typeError "singleton class can't be dumped")
    else
      .error (typeError ("can't dump anonymous " ++
        (if rt.classIsModule cid then "module" else "class") ++ " " ++ rendered))

section Values

variable (rt : Runtime im) (write : RubyValue → W im Unit)

/-- `array_get` on the heap as it is now. -/
def arrayGet (addr : Addr) (i : Nat) : W im RubyValue := do
  let w ← Enc.get
  pure ((w.heap.elems addr)[i]?.getD .nil)

def writeElems (addr : Addr) : W im Unit := do
  let w ← Enc.get
  writeLong (w.heap.elems addr).length
  Enc.each (fun i => do let e ← arrayGet addr i; write e) (List.range (w.heap.elems addr).length)

def writePairs (pairs : Pairs) : W im Unit := do
  writeLong pairs.length
  Enc.each (fun pair => do write pair.1; write pair.2) pairs

def writeFields (fields : Fields) : W im Unit := do
  writeLong fields.length
  Enc.each (fun field => do writeSymbol field.1; write field.2) fields

def writeInlineArray (elems : List RubyValue) : W im Unit := do
  beginValue
  takeLink
  tag '['
  writeLong elems.length
  Enc.each write elems

variable (v : RubyValue)

/-- The String arm of `write_inner`. -/
def writeStr (s : RStr) : W im Unit := orLink v do
  let w ← Enc.get
  let ivars := encodingIvar (w.heap.strBuf s).enc ++ ownIvars w.heap v
  openWrapper ivars
  registerLink v
  tag '\"'
  writeBytes (w.heap.strBuf s).bytes
  writeIvars write ivars

def writeRegexpBody (data : RegexpData) : W im Unit := do
  writeBytes (asBytes data.source)
  emit (.byte (regexpOptions data))

/-- The Regexp arm of `write_inner`. -/
def writeRegexp (addr : Addr) : W im Unit := orLink v do
  let w ← Enc.get
  let data := w.heap.regexp addr
  let ivars := encodingIvar (if (asBytes data.source).all (· < 0x80) then usAscii else utf8)
  openWrapper ivars
  registerLink v
  tag '/'
  writeRegexpBody data
  writeIvars write ivars

/-- The Array arm of `write_inner`. -/
def writeArray (addr : Addr) : W im Unit := orLink v do
  let w ← Enc.get
  let ivars := ownIvars w.heap v
  openWrapper ivars
  registerLink v
  tag '['
  writeElems write addr
  writeIvars write ivars

def writeDefault : W im Unit := if v = .nil then pure () else write v

/-- The Hash arm of `write_inner`. -/
def writeHash (addr : Addr) : W im Unit := orLink v do
  registerLink v
  let w ← Enc.get
  let table := w.heap.table addr
  Enc.check (if table.defaultProc.isSome then
    .error (typeError "can't dump hash with default proc") else .ok ())
  let ivars := ownIvars w.heap v
  openWrapper ivars
  tag (if table.default = .nil then '{' else '}')
  writePairs write (hashPairsSnapshot table)
  writeDefault write table.default
  writeIvars write ivars

/-- The Range arm of `write_inner`. -/
def writeRange (addr : Addr) : W im Unit := do
  let w ← Enc.get
  let parts := w.heap.range addr
  orLink v do
    registerLink v
    tag 'o'
    writeSymbol "Range"
    writeFields write [("excl", .bool parts.2.2), ("begin", parts.1.getD .nil),
      ("end", parts.2.1.getD .nil)]

/-- The Class arm of `write_inner`. -/
def writeClass (cid : ClassId) : W im Unit := orLink v do
  registerLink v
  tag (if rt.classIsModule cid then 'm' else 'c')
  let name ← Enc.check (nameable rt cid)
  writeBytes (asBytes name)

variable (name : String)

/-- The Rational and Complex arms of `write_inner`: a class and an array no link names. -/
def writeNumberPair (elems : List RubyValue) : W im Unit := do
  takeLink
  tag 'U'
  writeSymbol name
  writeInlineArray write elems

def writeBuiltinBody (payload : RubyValue) : W im Unit := do
  let w ← Enc.get
  match payload with
  | .str s => do
    tag '\"'
    writeBytes (w.heap.strBuf s).bytes
  | .array addr => do
    tag '['
    writeElems write addr
  | .hash addr => do
    tag '{'
    writePairs write (hashPairsSnapshot (w.heap.table addr))
  | .regexp addr => do
    tag '/'
    writeRegexpBody (w.heap.regexp addr)
  | other =>
    Enc.fail (typeError ("can't dump " ++ rt.classNameOf w.heap other ++ " subclass payload"))

/-- `send_value`, a raise of which ends the dump. -/
def sendFromDump (recv : RubyValue) (method : String) (args : List RubyValue) : W im RubyValue :=
  Enc.silent fun w =>
    match rt.sendValue w.heap recv method args with
    | (.ok answer, heap) => .ok (answer, { w with heap := heap })
    | (.error message, _) => .error (.raised (.program message))

/-- The Time arm of `write_object`. -/
def writeTime (addr : Addr) (name : String) : W im Unit := orLink v do
  registerLink v
  let w ← Enc.get
  let dumped := rt.timeMdump w.heap addr
  let ivars := dumped.2.map fun pair => Iv.named pair.1 pair.2
  openWrapper ivars
  tag 'u'
  writeSymbol name
  writeBytes dumped.1
  writeIvars write ivars

/-- The Set arm of `write_object`. -/
def writeSet (hash : Addr) (name : String) : W im Unit := orLink v do
  registerLink v
  tag 'o'
  writeSymbol name
  writeIvars write [.named "@hash" (.hash hash)]

/-- The `marshal_dump` arm of `write_object`. -/
def writeMarshalDump : W im Unit := orLink v do
  registerLink v
  tag 'U'
  writeSymbol name
  let dumped ← sendFromDump rt v "marshal_dump" []
  write dumped

/-- The buffer of a string `_dump` returned. -/
def dumpedString (result : RubyValue) : W im Value.StrBuf := do
  let w ← Enc.get
  match result with
  | .str s => pure (w.heap.strBuf s)
  | _ => Enc.fail (typeError "_dump() must return string")

/-- The `_dump` arm of `write_object`. -/
def writeUserDump : W im Unit := orLink v do
  registerLink v
  let result ← sendFromDump rt v "_dump" [.int ⟨-1, by decide⟩]
  let buf ← dumpedString result
  let ivars := encodingIvar buf.enc
  openWrapper ivars
  tag 'u'
  writeSymbol name
  writeBytes buf.bytes
  writeIvars write ivars

/-- The Struct arm of `write_object`. -/
def writeStruct (members : List (Symbol × RubyValue)) (name : String) : W im Unit := orLink v do
  registerLink v
  tag 'S'
  writeSymbol name
  writeFields write (members.map fun mem => (rt.symbolName mem.1, mem.2))

/-- The arm of `write_object` for an instance of a builtin's subclass. -/
def writeSubclass (addr : Addr) (payload : RubyValue) (name : String) : W im Unit := orLink v do
  let w ← Enc.get
  let encoding := match payload with
    | .str s => encodingIvar (w.heap.strBuf s).enc
    | _ => []
  let ivars := encoding ++ namedIvars (w.heap.ivarsAt addr)
  openWrapper ivars
  registerLink v
  tag 'C'
  writeSymbol name
  writeBuiltinBody rt write payload
  writeIvars write ivars

/-- One `e` record. What it wraps is read as a value of its own. -/
def writeExtended (mid : ClassId) : W im Unit :=
  match rt.className mid with
  | none => pure ()
  | some name => do
    tag 'e'
    writeSymbol name
    beginValue

/-- The instance variables of an object as its `o` record lists them: an exception's message
and backtrace come first. -/
def objectFields (cid : ClassId) (ivars : Fields) : W im Fields :=
  if (rt.ancestors cid).contains rt.exceptionClass then do
    let mesg ← sendFromDump rt v "message" []
    let bt ← sendFromDump rt v "backtrace" []
    pure (("mesg", mesg) :: ("bt", bt) :: ivars)
  else pure ivars

/-- The last arm of `write_object`. -/
def writePlain (addr : Addr) (cid : ClassId) (name : String) : W im Unit :=
  orLink v do
    let w ← Enc.get
    Enc.each (writeExtended rt) (rt.extendedModules w.heap v)
    registerLink v
    tag 'o'
    writeSymbol name
    let fields ← objectFields rt v cid
      ((w.heap.ivarsAt addr).map fun pair => ("@" ++ pair.1, pair.2))
    writeFields write fields

def writeObject (addr : Addr) : W im Unit := do
  let w ← Enc.get
  let cid := (w.heap.object addr).1.val
  let name ← Enc.check (nameable rt cid)
  Enc.check (refuseUndumpable rt w.heap v cid)
  match (w.heap.object addr).2 with
  | .time => writeTime rt write v addr name
  | .set hash => writeSet write v hash name
  | kind =>
    if rt.respondsTo cid "marshal_dump" then writeMarshalDump rt write v name
    else if rt.respondsTo cid "_dump" then writeUserDump rt write v name
    else
      match kind with
      | .struct members => writeStruct rt write v members name
      | .wrapped payload => writeSubclass rt write v addr payload name
      | _ => writePlain rt write v addr cid name

/-- `bigint_to_value` on the heap of the dump. -/
def bigValue (n : Int) : W im RubyValue :=
  Enc.silent fun w => .ok ((bigintToValue w.heap n).1, { w with heap := (bigintToValue w.heap n).2 })

def writeInner : RubyValue → W im Unit
  | .nil => tag '0'
  | .bool b => tag (if b then 'T' else 'F')
  | .int n =>
    if fitsI32 n.val then do
      tag 'i'
      writeLong n.val
    else writeBignum n.val
  | .bigInt addr => do
    let w ← Enc.get
    writeBignum (w.heap.bigInt addr)
  | .symbol s => writeSymbol (rt.symbolName s)
  | .float bits => do
    takeLink
    tag 'f'
    writeBytes (asBytes (rt.floatToMarshal bits))
  | .str s => writeStr write (.str s) s
  | .regexp addr => writeRegexp write (.regexp addr) addr
  | .array addr => writeArray write (.array addr) addr
  | .hash addr => writeHash write (.hash addr) addr
  | .range addr => writeRange write (.range addr) addr
  | .classRef cid => writeClass rt (.classRef cid) cid
  | .rational addr => do
    let w ← Enc.get
    let num ← bigValue (w.heap.rational addr).1
    let den ← bigValue (w.heap.rational addr).2
    writeNumberPair write "Rational" [num, den]
  | .complex addr => do
    let w ← Enc.get
    writeNumberPair write "Complex" [(w.heap.complex addr).1, (w.heap.complex addr).2]
  | .object addr => writeObject rt write (.object addr) addr
  | other => do
    let w ← Enc.get
    Enc.fail (typeError ("no _dump_data is defined for class " ++ rt.classNameOf w.heap other))

/-- The checks `write` makes before it writes. -/
def checkWritable (w : Writer im) (v : RubyValue) : Except Failure Unit :=
  match w.limit with
  | some limit =>
    if limit < w.depth then .error (argError "exceed depth limit")
    else refuseUndumpable rt w.heap v (rt.classId w.heap v)
  | none => refuseUndumpable rt w.heap v (rt.classId w.heap v)

/-- `write` around `write_inner`. -/
def writeAround (inner : RubyValue → W im Unit) (v : RubyValue) : W im Unit := do
  beginValue
  let w ← Enc.get
  Enc.check (checkWritable rt w v)
  Enc.modify fun w => { w with depth := w.depth + 1 }
  inner v
  Enc.modify fun w => { w with depth := w.depth - 1 }

end Values

/-- `Writer::write`, to a bounded depth. -/
def write (rt : Runtime im) : Nat → RubyValue → W im Unit
  | 0, _ => Enc.fail .fuel
  | fuel + 1, v => writeAround rt (writeInner rt (write rt fuel)) v

/-- `Marshal.dump` without a port: the version, then the value. -/
def dump (rt : Runtime im) (fuel : Nat) (v : RubyValue) : W im Unit := do
  emit (.byte 4)
  emit (.byte 8)
  write rt fuel v

end Zeo.Marshal
