import Zeo.Marshal.Writer

/-!
# The reader

`Marshal.load` walks a stream and builds values on the heap. Symbols and values are entered in
two tables as they come, and an index in the stream is looked up there. Some kinds enter their
value when it is complete, some enter it empty and fill it, and some enter nil and replace it in
the end.
-/

namespace Zeo.Marshal

open Zeo.Enc Zeo.Lib Zeo.Value Dec

variable {eql : UserEql} {im : ValueMap eql}

/-- `Reader`, without its options. The fields from `start` on are not in the source: they say
where in the stream the value of each entry begins. -/
structure Reader (im : ValueMap eql) where
  heap : Heap im
  pos : Nat
  symbols : List String
  objects : List RubyValue
  /-- Whether a `hash` of the program has raised while a key was stored. -/
  parked : Bool
  start : Nat
  born : List Nat
  /-- The sizes of the tables at the tokens read so far. -/
  stamps : List Stamp
  counted : born.length = objects.length

namespace Reader

def new (heap : Heap im) : Reader im where
  heap := heap
  pos := 0
  symbols := []
  objects := []
  parked := false
  start := 0
  born := []
  stamps := []
  counted := rfl

def stamp (r : Reader im) : Stamp := ⟨r.pos, r.objects.length, r.symbols.length⟩

def advance (r : Reader im) (count : Nat) : Reader im :=
  { r with pos := r.pos + count, stamps := r.stamps ++ [r.stamp] }

/-- `objects.push`. -/
def push (r : Reader im) (v : RubyValue) : Reader im :=
  { r with
    objects := r.objects ++ [v]
    born := r.born ++ [r.start]
    counted := by simp [r.counted] }

/-- `objects[index] = v`. -/
def replace (r : Reader im) (index : Nat) (v : RubyValue) : Reader im :=
  { r with
    objects := r.objects.set index v
    counted := by simp [r.counted] }

end Reader

structure LoadOptions where
  visitor : Option RubyValue
  freeze : Bool

abbrev R (im : ValueMap eql) (α : Type) : Type :=
  Dec Failure (Reader im) Token UInt8 α

def tooShort : Failure := argError "marshal data too short"

def byte : R im UInt8 := fun r input =>
  match input with
  | [] => .halted tooShort []
  | b :: rest => .done b (r.advance 1) rest [.byte b]

/-- `read_long`. -/
def long : R im Int := fun r input =>
  match readLong input with
  | none => .halted tooShort []
  | some (x, rest) =>
    .done x (r.advance (input.length - rest.length)) rest [.long x]

def raw (count : Nat) : R im (List UInt8) := fun r input =>
  if input.length < count then .halted tooShort []
  else .done (input.take count) (r.advance count) (input.drop count) [.raw (input.take count)]

/-- `x as usize`. -/
def asUsize (x : Int) : Nat := (x % 2 ^ 64).toNat

/-- `read_bytes`. A negative length is a huge one: the end of the slice lies past the input, or
wraps around to a place before its start. -/
def readBytes : R im (List UInt8) := do
  let len ← long
  let r ← get
  if len < 0 then
    fail (if 0 ≤ (r.pos : Int) + len then .panicked (.slice r.pos len) else tooShort)
  else raw len.toNat

def letter (b : UInt8) : Char := Char.ofNat b.toNat

def readLetter : R im Char := do
  let b ← byte
  pure (letter b)

def hex (c : Char) : String := String.ofList (Nat.toDigits 16 c.toNat)

/-- A value begins here. Not in the source. -/
def beginRead : R im Unit :=
  note (fun r => .start r.born r.symbols) fun r => { r with start := r.pos }

section Symbols

variable (rt : Runtime im)

def newSymbol : R im String := do
  let bytes ← readBytes
  let name := fromUtf8Lossy rt.lossy bytes
  modify fun r => { r with symbols := r.symbols ++ [name] }
  pure name

/-- `Vec::get` at an index read from the stream. -/
def lookup {α : Type} (items : List α) (x : Int) : Option α :=
  if x < 0 then none else items[x.toNat]?

def linkedSymbol : R im String := do
  let x ← long
  let r ← get
  match lookup r.symbols x with
  | some name => pure name
  | none => fail (argError "bad symbol link")

def readSymbolName : R im String := do
  match ← readLetter with
  | ':' => newSymbol rt
  | ';' => linkedSymbol
  | c => fail (argError ("expected a symbol (0x" ++ hex c ++ ")"))

end Symbols

def allocate (body : Body im) : R im Addr :=
  silent fun r => .ok ((r.heap.alloc body).1, { r with heap := (r.heap.alloc body).2 })

def change (addr : Addr) (f : Cell im → Cell im) : R im Unit :=
  modify fun r => { r with heap := r.heap.update addr f }

/-- `objects.push`. -/
def pushObject (v : RubyValue) : R im Unit := modify fun r => r.push v

def reserveObject : R im Nat :=
  silent fun r => .ok (r.objects.length, r.push .nil)

/-- `objects[index] = v`. -/
def replaceObject (index : Nat) (v : RubyValue) : R im Unit :=
  modify fun r => r.replace index v

def arrayPush (addr : Addr) (v : RubyValue) : R im Unit :=
  change addr fun cell =>
    match cell.body with
    | .array elems => { cell with body := .array (elems ++ [v]) }
    | _ => cell

def Cell.withTable (cell : Cell im) (table : RHashData im) : Cell im :=
  match cell.body with
  | .hash _ => { cell with body := .hash table }
  | _ => cell

def hashSet (rt : Runtime im) (addr : Addr) (key value : RubyValue) : R im Unit :=
  silent fun r =>
    match hashSetUnder (r.heap.world rt) ⟨r.heap.next, r.parked⟩ (r.heap.table addr) key value with
    | .overflow => .error .crash
    | .raised message => .error (.raised (.program message))
    | .done (table, run) =>
      .ok ((), { r with
        heap := (r.heap.reserve run.next).update addr (·.withTable table)
        parked := run.parked })

def setDefault (addr : Addr) (v : RubyValue) : R im Unit :=
  change addr fun cell =>
    match cell.body with
    | .hash table => { cell with body := .hash { table with default := v } }
    | _ => cell

/-- `StrBuf::set_encoding` on the string at an address. -/
def retag (addr : Addr) (enc : EncodingId) : R im Unit :=
  change addr fun cell =>
    match cell.body with
    | .str buf frozen => { cell with body := .str { buf with enc := enc } frozen }
    | _ => cell

/-- `set_string_encoding`: on a string, or the string an instance of a subclass wraps. -/
def setStringEncoding (v : RubyValue) (enc : EncodingId) : R im Unit := do
  let r ← get
  match v with
  | .str (.shared addr) => retag addr enc
  | .object addr =>
    match (r.heap.object addr).2 with
    | .wrapped (.str (.shared addr)) => retag addr enc
    | _ => pure ()
  | _ => pure ()

/-- The address whose cell holds the instance variables of a value. -/
def ivarAddr : RubyValue → Option Addr
  | .str (.shared addr) => some addr
  | .array addr => some addr
  | .hash addr => some addr
  | .regexp addr => some addr
  | .matchData addr => some addr
  | .reference _ addr => some addr
  | .object addr => some addr
  | _ => none

/-- `ivar_set_named` and `value_ivars::set`. -/
def ivarSet (v : RubyValue) (name : String) (val : RubyValue) : R im Unit :=
  match ivarAddr v with
  | some addr => change addr fun cell => { cell with ivars := setIvar cell.ivars name val }
  | none => pure ()

/-- `trim_start_matches('@')`. -/
def trimAt (name : String) : String := String.ofList (name.toList.dropWhile (· == '@'))

def truthy : RubyValue → Bool
  | .nil => false
  | .bool b => b
  | _ => true

/-- `array_get`. -/
def elementAt (addr : Addr) (i : Nat) : R im RubyValue := do
  let r ← get
  pure ((r.heap.elems addr)[i]?.getD .nil)

section Sends

variable (rt : Runtime im)

/-- `send_value`, whose answer or raise is dropped. -/
def sendIgnored (recv : RubyValue) (method : String) (args : List RubyValue) : R im Unit :=
  modify fun r => { r with heap := (rt.sendValue r.heap recv method args).2 }

/-- `send_value`, a raise of which ends the load. -/
def sendFromLoad (recv : RubyValue) (method : String) (args : List RubyValue) : R im RubyValue :=
  silent fun r =>
    match rt.sendValue r.heap recv method args with
    | (.ok answer, heap) => .ok (answer, { r with heap := heap })
    | (.error message, _) => .error (.raised (.program message))

/-- A constructor of another builtin, a raise of which ends the load. -/
def construct (make : Heap im → Except String (RubyValue × Heap im)) : R im RubyValue :=
  silent fun r =>
    match make r.heap with
    | .ok (v, heap) => .ok (v, { r with heap := heap })
    | .error message => .error (.raised (.program message))

/-- `class_id_by_name`, or an error. -/
def classNamed (name : String) : R im ClassId :=
  check (match rt.classIdByName name with
    | some cid => .ok cid
    | none => .error (argError ("undefined class/module " ++ name)))

/-- `marshal_allocate`, or an error. -/
def allocateInstance (cid : ClassId) (name : String) : R im RubyValue :=
  silent fun r =>
    match rt.marshalAllocate r.heap cid with
    | some (v, heap) => .ok (v, { r with heap := heap })
    | none => .error (typeError ("allocator undefined for " ++ name))

end Sends

/-- `Symbol::intern`. -/
def internSymbol (name : String) : RubyValue := .symbol (.text name)

/-- An integer as `i64`, of which only the low bits are kept. -/
def toI64 (x : Int) : I64 := ⟨(x + 2 ^ 63) % 2 ^ 64 - 2 ^ 63, by omega⟩

/-- `BigInt::from_bytes_le` on the magnitude. -/
def fromBytesLe (bytes : List UInt8) : Nat := Nat.ofDigits 256 (bytes.map UInt8.toNat)

/-- `bigint_to_value` on the heap of the load. -/
def loadedInteger (n : Int) : R im RubyValue :=
  silent fun r => .ok ((bigintToValue r.heap n).1, { r with heap := (bigintToValue r.heap n).2 })

/-- The bytes of a bignum. Their number is a product in the machine word, and no buffer of more than
`isize::MAX` bytes can be allocated. -/
def readMagnitude : R im (List UInt8) := do
  let shorts ← long
  let size := asUsize shorts * 2 % 2 ^ 64
  if 2 ^ 63 ≤ size then fail (.panicked (.capacity shorts)) else raw size

def readBignum : R im RubyValue := do
  let sign ← readLetter
  let bytes ← readMagnitude
  let v ← loadedInteger (if sign = '-' then -fromBytesLe bytes else fromBytesLe bytes)
  pushObject v
  pure v

def stringFromBytes (bytes : List UInt8) (enc : EncodingId) : R im RubyValue := do
  let addr ← allocate (.str ⟨bytes, enc⟩ false)
  pure (.str (.shared addr))

def readString (enc : EncodingId) : R im RubyValue := do
  let bytes ← readBytes
  let v ← stringFromBytes bytes enc
  pushObject v
  pure v

/-- `rational_new`: lowest terms over a positive denominator. -/
def rationalNew (num den : Int) : Except Failure (Int × Int) :=
  if den = 0 then .error (.raised (.zeroDivision "divided by 0"))
  else
    let n := num / Int.gcd num den
    let d := den / Int.gcd num den
    .ok (if d < 0 then (-n, -d) else (n, d))

def rangeEndpoint : RubyValue → Option RubyValue
  | .nil => none
  | v => some v

def encFromIvar (lossy : List UInt8 → String) (h : Heap im) (name : String) (val : RubyValue) :
    Option EncodingId :=
  if name = "E" then some (if truthy val then utf8 else usAscii)
  else if name = "encoding" then
    match val with
    | .str s => find (fromUtf8Lossy lossy (h.strBuf s).bytes)
    | _ => none
  else none

section Values

variable (rt : Runtime im) (opts : LoadOptions)

/-- `freeze:`, on one value. -/
def freezeLoaded (v : RubyValue) : R im Unit :=
  if opts.freeze then sendIgnored rt v "freeze" [] else pure ()

/-- What `read` does with a value it has read. -/
def finishValue (v : RubyValue) : R im RubyValue := do
  freezeLoaded rt opts v
  match opts.visitor with
  | some visitor => sendFromLoad rt visitor "call" [v]
  | none => pure v

/-- `read` around `read_tag`. -/
def readAround (readTag : Char → R im RubyValue) : R im RubyValue := do
  beginRead
  let c ← readLetter
  let v ← readTag c
  finishValue rt opts v

variable (read : R im RubyValue)

def readFields {α : Type} (body : α → String → RubyValue → R im α) (count : Nat) (a : α) :
    R im α :=
  times (fun a => do
    let name ← readSymbolName rt
    let v ← read
    body a name v) count a

def readElems (addr : Addr) : R im Unit := do
  let len ← long
  times (fun _ => do let e ← read; arrayPush addr e) len.toNat ()

def readPairs (addr : Addr) : R im Unit := do
  let len ← long
  times (fun _ => do let k ← read; let v ← read; hashSet rt addr k v) len.toNat ()

/-- The `[` arm of `read_tag`. -/
def readArray : R im RubyValue := do
  let addr ← allocate (.array [])
  pushObject (.array addr)
  readElems read addr
  pure (.array addr)

def readDefault (defaulted : Bool) (addr : Addr) : R im Unit :=
  if defaulted then do
    let v ← read
    setDefault addr v
  else pure ()

/-- The arms of `read_tag` for a hash. -/
def readHash (defaulted : Bool) : R im RubyValue := do
  let addr ← allocate (.hash (RHashData.new .nil))
  pushObject (.hash addr)
  readPairs rt read addr
  readDefault read defaulted addr
  pure (.hash addr)

def readRegexpBody : R im RubyValue := do
  let src ← readBytes
  let opts ← byte
  let data : RegexpData := {
    source := fromUtf8Lossy rt.lossy src
    ignoreCase := opts &&& 1 != 0
    extended := opts &&& 2 != 0
    multiline := opts &&& 4 != 0 }
  check (match rt.regexpNew data with
    | .ok _ => .ok ()
    | .error message => .error (argError message))
  let addr ← allocate (.regexp data)
  pure (.regexp addr)

def readRegexp : R im RubyValue := do
  let index ← reserveObject
  let v ← readRegexpBody rt
  replaceObject index v
  pure v

def readClassRef : R im RubyValue := do
  let bytes ← readBytes
  let cid ← classNamed rt (fromUtf8Lossy rt.lossy bytes)
  pushObject (.classRef cid)
  pure (.classRef cid)

def membersOf (cid : ClassId) (name : String) : R im (List Symbol) :=
  check (match rt.structMembers cid with
    | some members => .ok members
    | none => .error (typeError (name ++ " is not a Struct")))

def placeMember (members : List Symbol) (values : List RubyValue) (name : String)
    (v : RubyValue) : List RubyValue :=
  match members.idxOf? (.text name) with
  | some index => values.set index v
  | none => values

def readStruct : R im RubyValue := do
  let index ← reserveObject
  let cls ← readSymbolName rt
  let cid ← classNamed rt cls
  let members ← membersOf rt cid cls
  let count ← long
  let values ← readFields rt read (fun values name v => pure (placeMember members values name v))
    (asUsize count) (List.replicate members.length .nil)
  let v ← construct fun h => rt.structConstruct h cid values
  replaceObject index v
  pure v

/-- The payload of an instance of a builtin's subclass, as yet without elements. -/
def readPayload : Char → R im RubyValue
  | '\"' => do
    let bytes ← readBytes
    stringFromBytes bytes ascii8bit
  | '[' => do
    let addr ← allocate (.array [])
    pure (.array addr)
  | '{' => do
    let addr ← allocate (.hash (RHashData.new .nil))
    pure (.hash addr)
  | '/' => readRegexpBody rt
  | c => Dec.fail (argError ("bad subclass body (0x" ++ hex c ++ ")"))

def fillPayload : RubyValue → R im Unit
  | .array addr => readElems read addr
  | .hash addr => readPairs rt read addr
  | _ => pure ()

/-- `marshal_alloc`, or an error. -/
def allocateSubclass (cid : ClassId) (payload : RubyValue) (name : String) : R im RubyValue :=
  Dec.silent fun r =>
    match rt.subclassAlloc r.heap cid payload with
    | some (addr, heap) => .ok (.object addr, { r with heap := heap })
    | none => .error (typeError (name ++ " is not a subclass of a marshalable builtin"))

def readSubclass : R im RubyValue := do
  let index ← reserveObject
  let cls ← readSymbolName rt
  let cid ← classNamed rt cls
  let c ← readLetter
  let payload ← readPayload rt c
  let v ← allocateSubclass rt cid payload cls
  replaceObject index v
  fillPayload rt read payload
  pure v

def toBigint (v : RubyValue) : R im Int := do
  let r ← Dec.get
  match v with
  | .int n => pure n.val
  | .bigInt addr => pure (r.heap.bigInt addr)
  | other => Dec.fail (typeError ("can't convert " ++ rt.convertName r.heap other ++ " into Integer"))

def isComponent (h : Heap im) : RubyValue → Bool
  | .int _ => true
  | .bigInt _ => true
  | .float _ => true
  | .rational _ => true
  | .complex _ => false
  | v => rt.isNumeric h v

def complexNew (real imag : RubyValue) : R im RubyValue := do
  let r ← Dec.get
  if isComponent rt r.heap real && isComponent rt r.heap imag then do
    let addr ← allocate (.complex real imag)
    pure (.complex addr)
  else
    Dec.fail (typeError ("can't convert " ++
      rt.convertName r.heap (if isComponent rt r.heap real then imag else real) ++ " into Complex"))

def arrayRead (v : RubyValue) : R im Addr :=
  Dec.check (match v with
    | .array addr => .ok addr
    | _ => .error (argError "malformed user marshal"))

/-- The Rational arm of `read_user_marshal`. -/
def readRational : R im RubyValue := do
  let inner ← read
  let array ← arrayRead inner
  let first ← elementAt array 0
  let num ← toBigint rt first
  let second ← elementAt array 1
  let den ← toBigint rt second
  let reduced ← Dec.check (rationalNew num den)
  let addr ← allocate (.rational reduced.1 reduced.2)
  pure (.rational addr)

/-- The Complex arm of `read_user_marshal`. -/
def readComplex : R im RubyValue := do
  let inner ← read
  let array ← arrayRead inner
  let real ← elementAt array 0
  let imag ← elementAt array 1
  complexNew rt real imag

/-- The arm of `read_user_marshal` for a class of the program. -/
def readMarshalLoad (index : Nat) (cls : String) : R im RubyValue := do
  let cid ← classNamed rt cls
  let obj ← allocateInstance rt cid cls
  replaceObject index obj
  let inner ← read
  let _ ← sendFromLoad rt obj "marshal_load" [inner]
  pure obj

/-- The value of `read_user_marshal`, by class. -/
def readMarshaled (index : Nat) (cls : String) : R im RubyValue :=
  if cls = "Rational" then readRational rt read
  else if cls = "Complex" then readComplex rt read
  else readMarshalLoad rt read index cls

def readUserMarshal : R im RubyValue := do
  let index ← reserveObject
  let cls ← readSymbolName rt
  let v ← readMarshaled rt read index cls
  replaceObject index v
  pure v

/-- One instance variable of user-defined data: an encoding, or a value kept by name. -/
def noteIvar (seen : EncodingId × Fields) (name : String) (val : RubyValue) :
    R im (EncodingId × Fields) := do
  let r ← Dec.get
  match encFromIvar rt.lossy r.heap name val with
  | some enc => pure (enc, seen.2)
  | none => pure (seen.1, seen.2 ++ [(name, val)])

/-- The instance variables of user-defined data, if it has any. -/
def readNotes (hasIvars : Bool) : R im (EncodingId × Fields) :=
  if hasIvars then do
    let count ← long
    readFields rt read (noteIvar rt) count.toNat (ascii8bit, [])
  else pure (ascii8bit, [])

def loadUserdef (cls : String) (bytes : List UInt8)
    (notes : EncodingId × Fields) : R im RubyValue :=
  if cls = "Time" then construct fun h => rt.timeMload h bytes notes.2
  else if cls = "Encoding" then
    let name := fromUtf8Lossy rt.lossy bytes
    Dec.check (match find name with
      | some id => .ok (rt.encodingValue id)
      | none => .error (argError ("undefined encoding name - " ++ name)))
  else do
    let data ← stringFromBytes bytes notes.1
    let cid ← classNamed rt cls
    sendFromLoad rt (.classRef cid) "_load" [data]

def readUserdef (hasIvars : Bool) : R im RubyValue := do
  let index ← reserveObject
  let cls ← readSymbolName rt
  let bytes ← readBytes
  let notes ← readNotes rt read hasIvars
  let v ← loadUserdef rt cls bytes notes
  replaceObject index v
  pure v

/-- What an exception does with the names `mesg` and `bt`, and every value with the others. -/
def assignIvar (v : RubyValue) (name : String) (val : RubyValue) : R im Unit :=
  if name = "mesg" then
    Dec.modify fun r => { r with heap := rt.setExceptionMessage r.heap v val }
  else if name = "bt" then
    if val = .nil then pure () else sendIgnored rt v "set_backtrace" [val]
  else ivarSet v (trimAt name) val

def readRange (index : Nat) : R im RubyValue := do
  let count ← long
  let parts ← readFields rt read (fun parts name v =>
    pure (if trimAt name = "begin" then (v, parts.2)
      else if trimAt name = "end" then (parts.1, v, parts.2.2)
      else if trimAt name = "excl" then (parts.1, parts.2.1, truthy v)
      else parts)) count.toNat (RubyValue.nil, RubyValue.nil, false)
  let addr ← allocate (.range (rangeEndpoint parts.1) (rangeEndpoint parts.2.1) parts.2.2)
  replaceObject index (.range addr)
  pure (.range addr)

/-- What `read_set` takes from one instance variable. -/
def noteMembers (members : List RubyValue) (name : String) (v : RubyValue) :
    R im (List RubyValue) := do
  let r ← Dec.get
  match v with
  | .hash addr => pure (if trimAt name = "hash" then hashKeys (r.heap.table addr) else members)
  | _ => pure members

def readSet (index : Nat) : R im RubyValue := do
  let count ← long
  let members ← readFields rt read noteMembers count.toNat []
  let v ← construct fun h => .ok (rt.setFrom h members)
  replaceObject index v
  pure v

/-- The instance variables of an object; a value that is no object takes none, and leaves those
of the stream unread. -/
def fillObject (obj : RubyValue) (count : Nat) : R im Unit :=
  match obj with
  | .object _ => readFields rt read (fun _ name v => assignIvar rt obj name v) count ()
  | _ => pure ()

/-- The last part of `read_object`. -/
def readPlain (index : Nat) (cls : String) : R im RubyValue := do
  let cid ← classNamed rt cls
  let obj ← allocateInstance rt cid cls
  replaceObject index obj
  let count ← long
  fillObject rt read obj count.toNat
  pure obj

/-- What `read_object` does by class. -/
def readObjectBody (index : Nat) (cls : String) : R im RubyValue :=
  if cls = "Range" then readRange rt read index
  else if cls = "Set" then readSet rt read index
  else readPlain rt read index cls

def readObject : R im RubyValue := do
  let index ← reserveObject
  let cls ← readSymbolName rt
  readObjectBody rt read index cls

/-- What `apply_ivars` does with one instance variable. -/
def applyIvar (v : RubyValue) (name : String) (val : RubyValue) : R im Unit := do
  let r ← Dec.get
  if name = "E" ∨ name = "encoding" then
    match encFromIvar rt.lossy r.heap name val with
    | some enc => setStringEncoding v enc
    | none => pure ()
  else assignIvar rt v name val

def applyIvars (v : RubyValue) : R im Unit := do
  let count ← long
  readFields rt read (fun _ name val => applyIvar rt v name val) count.toNat ()

/-- `extend` with the module of a name, if there is one. -/
def extendLoaded (inner : RubyValue) (name : String) : R im Unit :=
  match rt.classIdByName name with
  | some mid => sendIgnored rt inner "extend" [.classRef mid]
  | none => pure ()

/-- The `e` arm of `read_tag`. -/
def readExtended : R im RubyValue := do
  let name ← readSymbolName rt
  let inner ← read
  extendLoaded rt inner name
  pure inner

/-- The `@` arm of `read_tag`. -/
def readLink : R im RubyValue := do
  let x ← long
  let r ← Dec.get
  match lookup r.objects x with
  | some v => pure v
  | none => Dec.fail (argError "bad object link")

/-- What `read_ivar` does after the tag it wraps. -/
def readWrapped (readTag : Char → R im RubyValue) (c : Char) : R im RubyValue :=
  if c = 'u' then readUserdef rt read true
  else do
    let v ← readTag c
    applyIvars rt read v
    pure v

def readIvar (readTag : Char → R im RubyValue) : R im RubyValue := do
  let c ← readLetter
  readWrapped rt read readTag c

/-- `read_tag`, with itself for the value inside an `I` wrapper. -/
def readTagWith (readTag : Char → R im RubyValue) : Char → R im RubyValue
  | '0' => pure .nil
  | 'T' => pure (.bool true)
  | 'F' => pure (.bool false)
  | 'i' => do
    let x ← long
    pure (.int (toI64 x))
  | ':' => do
    let name ← newSymbol rt
    pure (internSymbol name)
  | ';' => do
    let name ← linkedSymbol
    pure (internSymbol name)
  | '@' => readLink
  | 'f' => do
    let bytes ← readBytes
    let v := RubyValue.float (rt.parseMarshalFloat (fromUtf8Lossy rt.lossy bytes))
    pushObject v
    pure v
  | '\"' => readString ascii8bit
  | '/' => readRegexp rt
  | '[' => readArray read
  | '{' => readHash rt read false
  | '}' => readHash rt read true
  | 'l' => readBignum
  | 'c' => readClassRef rt
  | 'm' => readClassRef rt
  | 'C' => readSubclass rt read
  | 'S' => readStruct rt read
  | 'U' => readUserMarshal rt read
  | 'u' => readUserdef rt read false
  | 'o' => readObject rt read
  | 'e' => readExtended rt read
  | 'I' => readIvar rt read readTag
  | c => Dec.fail (argError ("dump format error (0x" ++ hex c ++ ")"))

end Values

/-- `Reader::read_tag`, to a bounded depth. -/
def readTag (rt : Runtime im) (opts : LoadOptions) : Nat → Char → R im RubyValue
  | 0, _ => Dec.fail .fuel
  | fuel + 1, c =>
    readTagWith rt (readAround rt opts (readTag rt opts fuel)) (readTag rt opts fuel) c

/-- `Reader::read`. -/
def read (rt : Runtime im) (opts : LoadOptions) (fuel : Nat) : R im RubyValue :=
  readAround rt opts (readTag rt opts fuel)

/-- `Marshal.load` of a string: the version, then the value. -/
def load (rt : Runtime im) (opts : LoadOptions) (fuel : Nat) : R im RubyValue := do
  let major ← byte
  let minor ← byte
  if major ≠ 4 ∨ 8 < minor then
    Dec.fail (typeError ("incompatible marshal file format (can't be read)\n\tformat version 4.8" ++
      " required; " ++ toString major ++ "." ++ toString minor ++ " given"))
  else read rt opts fuel

end Zeo.Marshal
