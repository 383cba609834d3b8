import Zeo.Enc.Table
import Zeo.Enc.StrBuf

/-!
# Transcoding

`transcode.rs` decodes the source bytes into units, each with the number of bytes it took, and
encodes the units into the target one after the other. `String#encode` and `Encoding::Converter`
run the same engine; a run says how far it came and why it stopped. The mapping tables of the
single-byte and multibyte encodings and Unicode normalisation are parameters.
-/

namespace Zeo.Enc

open Zeo.Lib Zeo.Lib.Scan EncodingId

/-- The families of the registry's rows, in table order. -/
def kinds : List EncKind :=
  [
    .binary, .utf8, .ascii, .utf16 true, .utf16 false, .utf32 true, .utf32 false, .binary,
    .binary, .registered, .multiByte .eucJp, .multiByte .sjis, .multiByte .big5,
    .multiByte .big5, .registered, .registered, .multiByte .cp949, .registered,
    .multiByte .eucKr, .registered, .multiByte .gb18030, .multiByte .gbk, .latin1, .singleByte,
    .singleByte, .singleByte, .singleByte, .singleByte, .singleByte, .singleByte, .singleByte,
    .singleByte, .singleByte, .singleByte, .singleByte, .singleByte, .singleByte, .singleByte,
    .singleByte, .multiByte .sjis, .singleByte, .singleByte, .singleByte, .singleByte,
    .singleByte, .singleByte, .singleByte, .singleByte, .singleByte, .singleByte, .singleByte,
    .singleByte, .singleByte, .singleByte, .singleByte, .singleByte, .singleByte, .singleByte,
    .singleByte, .singleByte, .singleByte, .singleByte, .singleByte, .singleByte, .registered,
    .registered, .registered, .singleByte, .singleByte, .singleByte, .singleByte, .singleByte,
    .singleByte, .registered, .singleByte, .singleByte, .registered, .registered, .registered,
    .registered, .multiByte .eucJp, .multiByte .eucJp, .registered, .multiByte .gbk, .registered,
    .binary, .registered, .registered, .registered, .singleByte, .singleByte, .singleByte,
    .singleByte, .registered, .registered, .registered, .registered, .registered, .registered,
    .registered, .registered, .registered, .registered]

theorem kinds_length : kinds.length = 103 := rfl

/-- `EncodingId::kind`. -/
def EncodingId.kind (id : EncodingId) : EncKind := kinds.get (id.cast kinds_length.symm)

def EncodingId.isRegisteredOnly (id : EncodingId) : Bool := kind id = .registered

theorem kind_wide {id : EncodingId} :
    asciiCompatible id = true → wideOf (kind id) = none := by
  revert id
  decide

/-- What of a row its strings depend on. -/
def EncodingId.encoding (id : EncodingId) : Encoding :=
  ⟨kind id, asciiCompatible id, kind_wide⟩

/-- The data and the third-party mappings that transcoding looks characters up in. -/
structure Tables where
  /-- `SingleByteTable::hi` of a row: the scalar of byte 0x80 + i, 0 for none. -/
  hi : EncodingId → List Nat
  backendDecode : MbFamily → List UInt8 → Option (List Char)
  backendEncode : MbFamily → Char → Option (List UInt8)
  /-- The scalars refused whatever the backend answers. -/
  deny : MbFamily → List Char
  /-- The scalars encoded otherwise than by the backend. -/
  allow : MbFamily → List (Char × List UInt8)
  nfc : List Char → List Char
  denyAscii : ∀ family (c : Char), c.val.toNat < 0x80 → c ∉ deny family
  backendAscii : ∀ family (c : Char), c.val.toNat < 0x80 → (backendEncode family c).isSome

namespace Tables

variable (t : Tables)

/-- `SingleByteTable::decode`. -/
def decode (id : EncodingId) (b : UInt8) : Option Char :=
  if b.toNat < 0x80 then some (Char.ofNat b.toNat)
  else (charFromU32 ((t.hi id).getD (b.toNat - 0x80) 0)).filter fun c => c.val.toNat ≠ 0

/-- `SingleByteTable::encode`. -/
def encode (id : EncodingId) (c : Char) : Option UInt8 :=
  let cp := c.val.toNat
  if cp < 0x80 then some (UInt8.ofNat cp)
  else if 0x10000 ≤ cp then none
  else ((t.hi id).idxOf? cp).map fun i => UInt8.ofNat (i + 0x80)

def mbDecodeSeq (family : MbFamily) (seq : List UInt8) : Option Char :=
  match t.backendDecode family seq with
  | some [c] => some c
  | _ => none

def mbEncodeChar (family : MbFamily) (c : Char) : Option (List UInt8) :=
  if c ∈ t.deny family then none
  else
    match (t.allow family).lookup c with
    | some bytes => some bytes
    | none => t.backendEncode family c

end Tables

def noTables : Tables where
  hi _ := []
  backendDecode _ _ := none
  backendEncode _ c := if c.val.toNat < 0x80 then some [UInt8.ofNat c.val.toNat] else none
  deny _ := []
  allow _ := []
  nfc cs := cs
  denyAscii _ _ _ := List.not_mem_nil
  backendAscii _ _ small := by rw [if_pos small]; rfl

/-- `Unit`: one decoded unit of the source. -/
inductive SourceUnit where
  | char (c : Char)
  /-- Bytes that the source encoding could not decode. -/
  | invalid (bytes : List UInt8) (style : InvalidStyle)
  /-- A character without a Unicode mapping. -/
  | unmapped (bytes : List UInt8)
deriving DecidableEq

/-- The unit at the front of a UTF-8 string (`decode_utf8_spans`). -/
def utf8Source (bytes : List UInt8) : Nat × SourceUnit :=
  match Utf8.unit bytes with
  | (n, .char c) => (n, .char c)
  | (n, .cut) => (n, .invalid (bytes.take n) .incomplete)
  | (n, .bad) =>
    (n, .invalid (bytes.take n)
      (match bytes[n]? with
      | some next => if within (bytes.headD 0) 0xC2 0xF4 then .followedBy next else .plain
      | none => .plain))

def wideSource (w : Wide) (bytes : List UInt8) : Nat × SourceUnit :=
  let unit := wideUnit w bytes
  (unit.len, match unit.scalar with
    | some c => .char c
    | none => .invalid (bytes.take unit.len) unit.style)

variable (t : Tables)

def mbSource (family : MbFamily) (bytes : List UInt8) : Nat × SourceUnit :=
  let unit := mbUnit family bytes
  let seq := bytes.take unit.len
  (unit.len,
    if !unit.valid then .invalid seq unit.style
    else
      match t.mbDecodeSeq family seq with
      | some c => .char c
      | none => .unmapped seq)

def byteChar (b : UInt8) : SourceUnit := .char (Char.ofNat b.toNat)

/-- The unit at the front of a string of an encoding (the arms of `decode_spans`). -/
def sourceUnit (id : EncodingId) (bytes : List UInt8) : Nat × SourceUnit :=
  let b := bytes.headD 0
  match kind id with
  | .latin1 => (1, byteChar b)
  | .binary => (1, if b.toNat < 0x80 then byteChar b else .unmapped [b])
  | .ascii | .registered => (1, if b.toNat < 0x80 then byteChar b else .invalid [b] .plain)
  | .singleByte =>
    (1, match t.decode id b with
      | some c => .char c
      | none => .unmapped [b])
  | .multiByte family => mbSource t family bytes
  | .utf16 be => wideSource ⟨2, be⟩ bytes
  | .utf32 be => wideSource ⟨4, be⟩ bytes
  | .utf8 => utf8Source bytes

def unitSpans (id : EncodingId) (bytes : List UInt8) : List (SourceUnit × Nat) :=
  (scan (sourceUnit t id) bytes).map fun s => (s.info, s.stop - s.start)

inductive Mode where
  | ascii
  | kanji
  | kana
deriving DecidableEq

/-- One turn of the loop of `decode_units`: the bytes it takes, the mode it leaves and the unit it
pushes, an escape pushing none. -/
def jisTurn (mode : Mode) : List UInt8 → Nat × Mode × Option SourceUnit
  | [] => (1, mode, none)
  | b :: rest =>
    if b = 0x1B then
      match rest with
      | [] => (1, mode, some (.invalid [0x1B] .plain))
      | [m] =>
        if m = 0x28 ∨ m = 0x24 then (2, mode, some (.invalid [0x1B, m] .incomplete))
        else (1, mode, some (.invalid [0x1B] .plain))
      | m :: f :: _ =>
        if m = 0x28 ∧ (f = 0x42 ∨ f = 0x4A) then (3, .ascii, none)
        else if m = 0x24 ∧ (f = 0x40 ∨ f = 0x42) then (3, .kanji, none)
        else if m = 0x28 ∨ m = 0x24 then (3, mode, some (.invalid [0x1B, m] (.followedBy f)))
        else (1, mode, some (.invalid [0x1B] .plain))
    else
      match mode with
      | .ascii => (1, mode, some (if b.toNat < 0x80 then byteChar b else .invalid [b] .plain))
      | .kanji =>
        if !within b 0x21 0x7E then (1, mode, some (.invalid [b] .plain))
        else
          match rest with
          | [] => (1, mode, some (.invalid [b] .incomplete))
          | c :: _ =>
            if within c 0x21 0x7E then
              (2, mode, some (match t.mbDecodeSeq .eucJp [b ||| 0x80, c ||| 0x80] with
                | some scalar => .char scalar
                | none => .unmapped [b, c]))
            else (2, mode, some (.invalid [b] (.followedBy c)))
      | .kana =>
        (1, mode, some (if within b 0x21 0x5F then .char (Char.ofNat (0xFF61 + (b.toNat - 0x21)))
          else .invalid [b] .plain))

/-- The loop of `decode_units`, `held` bytes behind the last unit. Every turn takes a byte, so that
the length is enough fuel. -/
def jisLoop (t : Tables) : Nat → Mode → Nat → List UInt8 → List (SourceUnit × Nat)
  | 0, _, _, _ => []
  | fuel + 1, mode, held, bytes =>
    if bytes = [] then []
    else
      match jisTurn t mode bytes with
      | (n, mode, none) => jisLoop t fuel mode (held + n) (bytes.drop n)
      | (n, mode, some unit) => (unit, held + n) :: jisLoop t fuel mode 0 (bytes.drop n)

def decodeUnits (bytes : List UInt8) : List (SourceUnit × Nat) :=
  jisLoop t bytes.length .ascii 0 bytes

def utf16Boms : List (List UInt8 × EncodingId) := [([0xFE, 0xFF], utf16be), ([0xFF, 0xFE], utf16le)]

def utf32Boms : List (List UInt8 × EncodingId) :=
  [([0x00, 0x00, 0xFE, 0xFF], utf32be), ([0xFF, 0xFE, 0x00, 0x00], utf32le)]

/-- The arm of `decode_spans` for the rows that read an order off their mark. The mark folds into
the first unit. -/
def bomSpans (boms : List (List UInt8 × EncodingId)) (bytes : List UInt8) :
    List (SourceUnit × Nat) :=
  if bytes = [] then []
  else
    match boms.find? fun bom => bom.1.isPrefixOf bytes with
    | some (mark, real) =>
      match unitSpans t real (bytes.drop mark.length) with
      | (unit, len) :: units => (unit, len + mark.length) :: units
      | [] => []
    | none => [(.invalid bytes .plain, bytes.length)]

def decodeSpans (bytes : List UInt8) (source : EncodingId) : List (SourceUnit × Nat) :=
  if source = iso2022jp then decodeUnits t bytes
  else if source = utf16 then bomSpans t utf16Boms bytes
  else if source = utf32 then bomSpans t utf32Boms bytes
  else unitSpans t source bytes

def encodeChar (c : Char) (target : EncodingId) : Option (List UInt8) :=
  let cp := c.val.toNat
  match kind target with
  | .utf8 => some (String.utf8EncodeChar c)
  | .ascii | .binary | .registered => if cp < 0x80 then some [UInt8.ofNat cp] else none
  | .latin1 => if cp < 0x100 then some [UInt8.ofNat cp] else none
  | .singleByte => (t.encode target c).map fun b => [b]
  | .multiByte family => t.mbEncodeChar family c
  | .utf16 be => some (wideEncodeChar ⟨2, be⟩ c)
  | .utf32 be => some (wideEncodeChar ⟨4, be⟩ c)

inductive XmlMode where
  | text
  | attr
deriving DecidableEq

inductive NewlineMode where
  | cr
  | crlf
  | universal
deriving DecidableEq

structure TranscodeOptions where
  /-- Malformed source bytes are replaced. -/
  invalidReplace : Bool := false
  undefReplace : Bool := false
  replace : Option (List Char) := none
  xml : Option XmlMode := none
  newline : Option NewlineMode := none
deriving DecidableEq

structure Encoder where
  mode : Mode
  emitHalfwidth : Bool
deriving DecidableEq

namespace Encoder

/-- `Encoder::enter`: the escape that switches to a mode, if the output is not in it. -/
def enter (e : Encoder) (mode : Mode) : Encoder × List UInt8 :=
  if e.mode = mode then (e, [])
  else
    ({ e with mode := mode }, match mode with
      | .ascii => [0x1B, 0x28, 0x42]
      | .kanji => [0x1B, 0x24, 0x42]
      | .kana => [0x1B, 0x28, 0x49])

def put (e : Encoder) (mode : Mode) (bytes : List UInt8) : Encoder × List UInt8 :=
  let (e, escape) := e.enter mode
  (e, escape ++ bytes)

/-- `Encoder::push`. -/
def push (t : Tables) (e : Encoder) (c : Char) : Option (Encoder × List UInt8) :=
  let cp := c.val.toNat
  if cp < 0x80 then some (e.put .ascii [UInt8.ofNat cp])
  else if 0xFF61 ≤ cp ∧ cp ≤ 0xFF9F then
    if !e.emitHalfwidth then none else some (e.put .kana [UInt8.ofNat (cp - 0xFF61 + 0x21)])
  else
    match t.mbEncodeChar .eucJp c with
    | some [a, b] =>
      if 0xA1 ≤ a.toNat ∧ 0xA1 ≤ b.toNat then some (e.put .kanji [a &&& 0x7F, b &&& 0x7F])
      else none
    | _ => none

/-- `Encoder::finish`. -/
def finish (e : Encoder) : Encoder × List UInt8 := e.enter .ascii

end Encoder

/-- `TranscodeState`: what of a conversion outlives a run. -/
structure TranscodeState where
  jis : Option Encoder
  bom : List UInt8
  bomWritten : Bool
  sawCr : Bool
  closeQuote : Bool
  target : EncodingId
deriving DecidableEq

/-- `TranscodeState::new`. -/
def TranscodeState.new (target : EncodingId) : TranscodeState :=
  let (real, bom) : EncodingId × List UInt8 :=
    if target = utf16 then (utf16be, [0xFE, 0xFF])
    else if target = utf32 then (utf32be, [0x00, 0x00, 0xFE, 0xFF])
    else (target, [])
  { jis := if real = iso2022jp then some ⟨.ascii, false⟩ else none
    bom := bom
    bomWritten := false
    sawCr := false
    closeQuote := false
    target := real }

/-- The bytes of a text in an encoding, without the characters it cannot hold. -/
def encodeText (text : List Char) (target : EncodingId) : List UInt8 :=
  text.flatMap fun c => (encodeChar t c target).getD []

/-- `TranscodeState::finish`: the state and the bytes written. -/
def TranscodeState.finish (t : Tables) (state : TranscodeState) : TranscodeState × List UInt8 :=
  let (jis, escape) : Option Encoder × List UInt8 :=
    match state.jis with
    | some e => (some e.finish.1, e.finish.2)
    | none => (none, [])
  ({ state with jis := jis, closeQuote := false },
    escape ++ if state.closeQuote then encodeText t ['"'] state.target else [])

def replacement (opts : TranscodeOptions) (target : EncodingId) : List UInt8 :=
  encodeText t (opts.replace.getD (match EncodingId.kind target with
    | .utf8 | .utf16 _ | .utf32 _ => [Char.ofNat 0xFFFD]
    | _ => ['?'])) target

/-- `emit_via`: the characters that the encoder takes. -/
def emitVia (t : Tables) : Encoder → List Char → Encoder × List UInt8
  | e, [] => (e, [])
  | e, c :: text =>
    match e.push t c with
    | some (e, bytes) =>
      let (e, later) := emitVia t e text
      (e, bytes ++ later)
    | none => emitVia t e text

def pushText (text : List Char) (state : TranscodeState) : TranscodeState × List UInt8 :=
  match state.jis with
  | some e =>
    let (e, bytes) := emitVia t e text
    ({ state with jis := some e }, bytes)
  | none => (state, encodeText t text state.target)

def pushReplacement (opts : TranscodeOptions) (state : TranscodeState) :
    TranscodeState × List UInt8 :=
  match state.jis with
  | some _ => pushText t (opts.replace.getD ['?']) state
  | none => (state, replacement t opts state.target)

def applyXml (c : Char) (bytes : List UInt8) (opts : TranscodeOptions)
    (target : EncodingId) : List UInt8 :=
  match opts.xml, c with
  | some _, '&' => encodeText t "&amp;".toList target
  | some _, '<' => encodeText t "&lt;".toList target
  | some _, '>' => encodeText t "&gt;".toList target
  | some .attr, '"' => encodeText t "&quot;".toList target
  | _, _ => bytes

/-- What a push left: the state, the bytes written and whether the target could hold the
character. -/
structure Pushed where
  state : TranscodeState
  bytes : List UInt8
  ok : Bool

def emit (c : Char) (opts : TranscodeOptions) (state : TranscodeState) : Pushed :=
  match state.jis with
  | some e =>
    match e.push t c with
    | some (e, bytes) => ⟨{ state with jis := some e }, bytes, true⟩
    | none => ⟨state, [], false⟩
  | none =>
    match encodeChar t c state.target with
    | some bytes => ⟨state, applyXml t c bytes opts state.target, true⟩
    | none => ⟨state, [], false⟩

def pushChar (c : Char) (opts : TranscodeOptions) (state : TranscodeState) : Pushed :=
  match opts.newline with
  | some .universal =>
    let afterCr := state.sawCr
    let state := { state with sawCr := c = '\r' }
    if c = '\r' then emit t '\n' opts state
    else if c = '\n' ∧ afterCr then ⟨state, [], true⟩
    else emit t c opts state
  | some .cr => if c = '\n' then emit t '\r' opts state else emit t c opts state
  | some .crlf =>
    if c = '\n' then
      let first := emit t '\r' opts state
      if first.ok then
        let second := emit t '\n' opts first.state
        { second with bytes := first.bytes ++ second.bytes }
      else first
    else emit t c opts state
  | none => emit t c opts state

def hexDigit (n : Nat) : Char := Char.ofNat (if n < 10 then 0x30 + n else 0x37 + n)

/-- The lowest `count` hexadecimal digits. -/
def hexDigits : Nat → Nat → List Char
  | 0, _ => []
  | count + 1, n => hexDigits count (n / 16) ++ [hexDigit (n % 16)]

def codepointDigits (n : Nat) : Nat :=
  if n < 0x10000 then 4 else if n < 0x100000 then 5 else 6

def codepointName (c : Char) : String :=
  "U+" ++ String.ofList (hexDigits (codepointDigits c.val.toNat) c.val.toNat)

def quoteByte (b : UInt8) : List Char :=
  if within b 0x20 0x7E && b != 0x22 && b != 0x5C then [Char.ofNat b.toNat]
  else ['\\', 'x'] ++ hexDigits 2 b.toNat

def quoteBytes (bytes : List UInt8) : String :=
  "\"" ++ String.ofList (bytes.flatMap quoteByte) ++ "\""

def transcoderName (id : EncodingId) : String :=
  let name := name id
  if "Windows-125".toList.isPrefixOf name.toList then String.ofList (name.toList.map Char.toUpper)
  else name

def undefMessage (c : Char) (source target : EncodingId) : String :=
  let shown := transcoderName target
  if source = utf8 then
    if shown = name target then codepointName c ++ " from UTF-8 to " ++ shown
    else codepointName c ++ " to " ++ shown ++ " in conversion from UTF-8 to " ++ shown
  else
    codepointName c ++ " to " ++ shown ++ " in conversion from " ++ name source ++
      " to UTF-8 to " ++ shown

def unmappedMessage (raw : List UInt8) (source target : EncodingId) : String :=
  if target = utf8 ∧ transcoderName source = name source then
    quoteBytes raw ++ " from " ++ name source ++ " to UTF-8"
  else
    quoteBytes raw ++ " to UTF-8 in conversion from " ++ name source ++ " to UTF-8" ++
      if target = utf8 then "" else " to " ++ transcoderName target

def invalidMessage (raw : List UInt8) (style : InvalidStyle) (source : EncodingId) : String :=
  match style with
  | .plain => quoteBytes raw ++ " on " ++ name source
  | .incomplete => "incomplete " ++ quoteBytes raw ++ " on " ++ name source
  | .followedBy b =>
    quoteBytes raw ++ " followed by " ++ quoteBytes [b] ++ " on " ++ name source

def converterNotFound (source target : EncodingId) : String :=
  "code converter not found (" ++ name source ++ " to " ++ name target ++ ")"

structure TranscodeDetail where
  source : EncodingId
  destination : EncodingId
  errorBytes : List UInt8
  /-- The character without a place in the target. -/
  errorChar : Option Char
  incomplete : Bool
deriving DecidableEq

inductive TranscodeError where
  | invalidByteSequence (msg : String) (detail : TranscodeDetail)
  | undefinedConversion (msg : String) (detail : TranscodeDetail)
  | noConverter (msg : String)
deriving DecidableEq

/-- `Stop`: why a run stopped. -/
inductive Stop where
  | finished
  | incomplete (bytes : List UInt8) (msg : String) (detail : TranscodeDetail)
  | invalid (msg : String) (detail : TranscodeDetail)
  | undefined (msg : String) (detail : TranscodeDetail)
  | noConverter (msg : String)
  | destinationFull
deriving DecidableEq

/-- A `:fallback` handler. -/
abbrev Fallback := Option (Char → Option (List Char))

/-- What became of a unit: bytes to write, or a stop and whether the unit counts as consumed. -/
inductive Outcome where
  | bytes (chunk : List UInt8)
  | stop (stop : Stop) (counted : Bool)
deriving DecidableEq

/-- The body of the loop of `transcode_run`: one unit. -/
def convertUnit (source : EncodingId) (opts : TranscodeOptions) (fallback : Fallback)
    (state : TranscodeState) : SourceUnit → TranscodeState × Outcome
  | .invalid raw style =>
    let incomplete : Bool := style = .incomplete
    if opts.invalidReplace && !incomplete then
      let (state, chunk) := pushReplacement t opts state
      (state, .bytes chunk)
    else
      let msg := invalidMessage raw style source
      let detail : TranscodeDetail := ⟨source, state.target, raw, none, incomplete⟩
      if incomplete then (state, .stop (.incomplete raw msg detail) false)
      else (state, .stop (.invalid msg detail) true)
  | .unmapped raw =>
    if opts.undefReplace then
      let (state, chunk) := pushReplacement t opts state
      (state, .bytes chunk)
    else
      (state, .stop (.undefined (unmappedMessage raw source state.target)
        ⟨source, state.target, raw, none, false⟩) true)
  | .char c =>
    if isRegisteredOnly state.target && !(c.val.toNat < 0x80) then
      (state, .stop (.noConverter (converterNotFound source state.target)) false)
    else
      let pushed := pushChar t c opts state
      if pushed.ok then (pushed.state, .bytes pushed.bytes)
      else
        match fallback.bind fun f => f c with
        | some text =>
          let (state, chunk) := pushText t text pushed.state
          (state, .bytes (pushed.bytes ++ chunk))
        | none =>
          if opts.xml.isSome then
            (pushed.state, .bytes (pushed.bytes ++ encodeText t
              ("&#x".toList ++ hexRef c ++ [';']) state.target))
          else if opts.undefReplace then
            let (state, chunk) := pushReplacement t opts pushed.state
            (state, .bytes (pushed.bytes ++ chunk))
          else
            (pushed.state, .stop (.undefined (undefMessage c source state.target)
              ⟨source, state.target, (encodeChar t c source).getD [], some c, false⟩) true)
where
  /-- A codepoint in as many digits as it takes. -/
  hexRef (c : Char) : List Char := (hexDigits 6 c.val.toNat).dropWhile fun d => d = '0'

/-- `TranscodeRun`: the result of a run. -/
structure TranscodeRun where
  out : List UInt8
  consumed : Nat
  stop : Stop
  overflow : List UInt8

/-- The loop of `transcode_run`. -/
def runUnits (t : Tables) (source : EncodingId) (opts : TranscodeOptions) (fallback : Fallback)
    (limit : Option Nat) :
    List (SourceUnit × Nat) → TranscodeState → List UInt8 → Nat → TranscodeState × TranscodeRun
  | [], state, out, consumed => (state, ⟨out, consumed, .finished, []⟩)
  | (unit, span) :: units, state, out, consumed =>
    match convertUnit t source opts fallback state unit with
    | (state, .stop stop counted) =>
      (state, ⟨out, if counted then consumed + span else consumed, stop, []⟩)
    | (state, .bytes chunk) =>
      if limit.any fun l => l < out.length + chunk.length then
        (state, ⟨out, consumed + span, .destinationFull, chunk⟩)
      else runUnits t source opts fallback limit units state (out ++ chunk) (consumed + span)

/-- What a run writes before its first character: the mark and an opening quote, once. -/
def opening (opts : TranscodeOptions) (state : TranscodeState) : TranscodeState × List UInt8 :=
  if state.bomWritten then (state, [])
  else if opts.xml = some .attr then
    ({ state with closeQuote := true, bomWritten := true },
      state.bom ++ encodeText t ['"'] state.target)
  else ({ state with bomWritten := true }, state.bom)

def transcodeRun (bytes : List UInt8) (source : EncodingId) (opts : TranscodeOptions)
    (fallback : Fallback) (state : TranscodeState) (limit : Option Nat) :
    TranscodeState × TranscodeRun :=
  let (state, out) := opening t opts state
  if EncodingId.isRegisteredOnly source && bytes.any fun b => !(b.toNat < 0x80) then
    (state, ⟨out, 0, .noConverter (converterNotFound source state.target), []⟩)
  else runUnits t source opts fallback limit (decodeSpans t bytes source) state out 0

/-- The end of `transcode`: what a stop means for a whole string. -/
def settle (opts : TranscodeOptions) (state : TranscodeState) (run : TranscodeRun) :
    Except TranscodeError (List UInt8) :=
  match run.stop with
  | .incomplete _ msg detail =>
    if !opts.invalidReplace then .error (.invalidByteSequence msg detail)
    else
      let (state, chunk) := pushReplacement t opts state
      .ok (run.out ++ chunk ++ (state.finish t).2)
  | .invalid msg detail => .error (.invalidByteSequence msg detail)
  | .undefined msg detail => .error (.undefinedConversion msg detail)
  | .noConverter msg => .error (.noConverter msg)
  | .finished | .destinationFull => .ok (run.out ++ (state.finish t).2)

/-- `transcode` of a source that needs no composition. -/
def transcodePlain (bytes : List UInt8) (source target : EncodingId)
    (opts : TranscodeOptions) (fallback : Fallback) : Except TranscodeError (List UInt8) :=
  let (state, run) := transcodeRun t bytes source opts fallback (.new target) none
  settle t opts state run

def transcode (bytes : List UInt8) (source target : EncodingId)
    (opts : TranscodeOptions) (fallback : Fallback) : Except TranscodeError (List UInt8) :=
  if source = utf8Mac ∧ target ≠ utf8Mac ∧ Utf8.valid bytes = true then
    transcodePlain t (Utf8.encode (t.nfc (Utf8.text bytes))) utf8 target opts fallback
  else transcodePlain t bytes source target opts fallback

end Zeo.Enc
