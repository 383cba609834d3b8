import Zeo.Enc.Transcode

/-!
# Transcoding to an encoding and back

What a target writes for a character is read back as that character whatever follows it, so that
the units of the encoded text are its characters again. The rows `UTF-16` and `UTF-32` write as
their big-endian siblings behind a byte-order mark, which decoding takes off once. The encoder and
the decoder of ISO-2022-JP go from mode to mode by the same escapes.
-/

namespace Zeo.Enc

open Zeo.Lib Zeo.Lib.Scan List TranscodeState UInt8 EncodingId Utf8

variable {t : Tables}

/-- The encodings that hold every text they are given, or refuse it. -/
def faithfulTargets : List EncodingId :=
  [utf8, utf16be, utf16le, utf32be, utf32le, utf16, utf32, usAscii, iso88591]

/-- The rows whose strings begin with a byte-order mark. -/
def carriesBom (id : EncodingId) : Bool := id = utf16 ∨ id = utf32

/-- An encoding reads back what it writes: the bytes of a character are its unit whatever
follows. -/
def ReadsBack (t : Tables) (id : EncodingId) : Prop :=
  ∀ c bytes, encodeChar t c id = some bytes → Stands (sourceUnit t id) (bytes, .char c)

theorem readsBack_utf8 : ReadsBack t utf8 := by
  intro c bytes encoded
  obtain rfl : String.utf8EncodeChar c = bytes := Option.some.inj encoded
  obtain ⟨some_, classified⟩ := (spells_encode c).stands
  refine ⟨some_, fun rest => ?_⟩
  change utf8Source _ = _
  unfold utf8Source
  rw [classified rest]

theorem wideSource_encode (w : Wide) (c : Char) :
    Stands (wideSource w) (wideEncodeChar w c, .char c) := by
  refine ⟨fun none => ?_, fun rest => ?_⟩
  · have unit := wideUnit_encode w c []
    rw [show wideEncodeChar w c = [] from none] at unit
    unfold wideUnit at unit
    split at unit
    · exact absurd (congrArg WideUnit.scalar unit) (Option.some_ne_none c).symm
    · exact absurd (congrArg WideUnit.scalar unit) (Option.some_ne_none c).symm
  · unfold wideSource
    rw [wideUnit_encode]

variable {id : EncodingId}

theorem readsBack_wide {w : Wide} (reads : ∀ bytes, sourceUnit t id bytes = wideSource w bytes)
    (writes : ∀ c, encodeChar t c id = some (wideEncodeChar w c)) : ReadsBack t id := by
  intro c bytes encoded
  obtain rfl : wideEncodeChar w c = bytes := Option.some.inj ((writes c).symm.trans encoded)
  obtain ⟨some_, classified⟩ := wideSource_encode w c
  exact ⟨some_, fun rest => (reads _).trans (classified rest)⟩

variable {c : Char}

theorem toNat_ofNat_val (small : c.val.toNat < 0x100) :
    (ofNat c.val.toNat).toNat = c.val.toNat := by
  rw [toNat_ofNat']
  omega

theorem byteChar_ofNat (small : c.val.toNat < 0x100) :
    byteChar (ofNat c.val.toNat) = .char c := by
  unfold byteChar
  rw [toNat_ofNat_val small]
  exact congrArg SourceUnit.char (Char.ofNat_toNat c)

/-- An encoding writes the scalars below a limit as single bytes, and no others. -/
def Narrow (t : Tables) (id : EncodingId) (limit : Nat) : Prop :=
  ∀ c, encodeChar t c id = if c.val.toNat < limit then some [ofNat c.val.toNat] else none

theorem Narrow.encoded {limit : Nat} (narrow : Narrow t id limit)
    (holds : (encodeChar t c id).isSome) :
    c.val.toNat < limit ∧ encodeChar t c id = some [ofNat c.val.toNat] := by
  rw [narrow c] at holds ⊢
  split at holds
  · rename_i small
    exact ⟨small, if_pos small⟩
  · exact absurd holds Bool.false_ne_true

theorem readsBack_narrow {limit : Nat} (narrow : Narrow t id limit)
    (bytes : limit ≤ 0x100) (reads : ∀ (b : UInt8) rest, b.toNat < limit →
      sourceUnit t id (b :: rest) = (1, byteChar b)) : ReadsBack t id := by
  intro c written encoded
  obtain ⟨small, one⟩ := narrow.encoded (Option.isSome_of_eq_some encoded)
  obtain rfl := Option.some.inj (one.symm.trans encoded)
  refine ⟨cons_ne_nil _ _, fun rest => ?_⟩
  rw [singleton_append, reads _ _ (by rwa [toNat_ofNat_val (by omega)]), byteChar_ofNat (by omega)]
  rfl

theorem narrow_usAscii : Narrow t usAscii 0x80 := fun _ => rfl

theorem narrow_iso88591 : Narrow t iso88591 0x100 := fun _ => rfl

/-- The pushes of a text one after the other, if the target takes every character. -/
def emits (t : Tables) : TranscodeState → List Char → Option (TranscodeState × List UInt8)
  | state, [] => some (state, [])
  | state, c :: cs =>
    let pushed := emit t c {} state
    if pushed.ok then
      (emits t pushed.state cs).map fun (last, bytes) => (last, pushed.bytes ++ bytes)
    else none

theorem emit_target (t : Tables) (c : Char) (opts : TranscodeOptions) (state : TranscodeState) :
    (emit t c opts state).state.target = state.target := by
  unfold emit
  split <;> split <;> rfl

variable {state : TranscodeState}

theorem convertUnit_char (source : EncodingId)
    (known : isRegisteredOnly state.target = false) (c : Char) :
    convertUnit t source {} none state (.char c) =
      if (emit t c {} state).ok then ((emit t c {} state).state, .bytes (emit t c {} state).bytes)
      else ((emit t c {} state).state, .stop (.undefined (undefMessage c source state.target)
        ⟨source, state.target, (encodeChar t c source).getD [], some c, false⟩) true) := by
  unfold convertUnit
  rw [known]
  rfl

/-- A run over characters comes to its end exactly when the target takes them all. -/
theorem settle_chars (source : EncodingId)
    (known : isRegisteredOnly state.target = false) (units : List (SourceUnit × Nat))
    (cs : List Char) (chars : units.map Prod.fst = cs.map .char) (out : List UInt8) (n : Nat)
    (result : List UInt8) :
    (fun r : TranscodeState × TranscodeRun => settle t {} r.1 r.2)
        (runUnits t source {} none none units state out n) = .ok result ↔
      ∃ last bytes, emits t state cs = some (last, bytes) ∧
        result = out ++ bytes ++ (last.finish t).2 := by
  induction cs generalizing state units out n with
  | nil =>
    obtain rfl := map_eq_nil_iff.mp chars
    simp [runUnits, settle, emits, eq_comm]
  | cons c cs ih =>
    obtain ⟨⟨unit, span⟩, units, rfl⟩ := exists_cons_of_ne_nil
      (show units ≠ [] from fun none => by simp [none] at chars)
    obtain ⟨rfl, rest⟩ := List.cons.inj chars
    have later := ih (emit_target t c {} state ▸ known) units rest
      (out ++ (emit t c {} state).bytes) (n + span)
    rw [runUnits, convertUnit_char source known, emits]
    cases (emit t c {} state).ok with
    | false => simp [settle]
    | true => simpa using later

def opened (target : EncodingId) : TranscodeState :=
  { TranscodeState.new target with bomWritten := true }

variable {cs : List Char}

variable {target : EncodingId} {bytes : List UInt8} {source : EncodingId}

/-- A string whose units are characters is transcoded exactly when the target takes them all, to
its mark, their bytes and what closes them. -/
theorem transcode_emits (readable : isRegisteredOnly source = false) (notMac : source ≠ utf8Mac)
    (known : isRegisteredOnly (new target).target = false)
    (chars : (decodeSpans t bytes source).map Prod.fst = cs.map .char) (out : List UInt8) :
    transcode t bytes source target {} none = .ok out ↔
      ∃ last written, emits t (opened target) cs = some (last, written) ∧
        out = (new target).bom ++ written ++ (last.finish t).2 := by
  rw [← settle_chars source (show isRegisteredOnly (opened target).target = false from known) _ cs
    chars (new target).bom 0]
  unfold transcode transcodePlain transcodeRun
  rw [if_neg fun composed => notMac composed.1]
  simp only [readable]
  rfl

/-- A target without escapes takes a text exactly when it holds each character. -/
theorem emits_plain (plain : state.jis = none) (cs : List Char) :
    emits t state cs = if ∀ c ∈ cs, (encodeChar t c state.target).isSome then
      some (state, encodeText t cs state.target) else none := by
  induction cs with
  | nil => simp [emits, encodeText]
  | cons c cs ih =>
    rw [emits, emit, plain]
    cases encoded : encodeChar t c state.target with
    | none => simp [encoded]
    | some bytes =>
      have same : applyXml t c bytes {} state.target = bytes := rfl
      by_cases all : ∀ c ∈ cs, (encodeChar t c state.target).isSome
      · simp [ih, if_pos all, same, encoded, encodeText]
      · simp [ih, if_neg all, encoded]

theorem transcode_chars (readable : isRegisteredOnly source = false) (notMac : source ≠ utf8Mac)
    (plain : (new target).jis = none) (known : isRegisteredOnly (new target).target = false)
    (chars : (decodeSpans t bytes source).map Prod.fst = cs.map .char) (out : List UInt8) :
    transcode t bytes source target {} none = .ok out ↔
      (∀ c ∈ cs, (encodeChar t c (new target).target).isSome) ∧
        out = (new target).bom ++
          encodeText t cs (new target).target := by
  have plainOpened : (opened target).jis = none := plain
  have nothing : ((opened target).finish t).2 = [] := by
    rw [TranscodeState.finish, plainOpened]
    rfl
  rw [transcode_emits readable notMac known chars, emits_plain plainOpened]
  by_cases all : ∀ c ∈ cs, (encodeChar t c (opened target).target).isSome
  · simp only [if_pos all, Option.some.injEq, Prod.mk.injEq, and_assoc, exists_and_left,
      exists_eq_left', nothing, append_nil]
    exact ⟨fun same => ⟨all, same⟩, And.right⟩
  · rw [if_neg all]
    exact iff_of_false nofun fun holds => all holds.1

theorem unitSpans_encodeText (reads : ReadsBack t id) (all : ∀ c ∈ cs, (encodeChar t c id).isSome) :
    (unitSpans t id (encodeText t cs id)).map Prod.fst = cs.map .char := by
  have stand : ∀ p ∈ cs.map fun c => ((encodeChar t c id).getD [], SourceUnit.char c),
      Stands (sourceUnit t id) p := by
    intro p mem
    obtain ⟨c, listed, rfl⟩ := mem_map.mp mem
    obtain ⟨bytes, encoded⟩ := Option.isSome_iff_exists.mp (all c listed)
    rw [encoded]
    exact reads c bytes encoded
  have cuts := cuts_of_stands stand
  rw [map_map, show (Prod.fst ∘ fun c => ((encodeChar t c id).getD [], SourceUnit.char c)) =
    fun c => (encodeChar t c id).getD [] from rfl, ← flatMap_def, ← encodeText] at cuts
  unfold unitSpans
  rw [cuts.scan, map_lengths_spansOf, map_map, map_map]
  rfl

/-- Behind their mark the rows that carry one decode as their siblings. -/
theorem bomSpans_chars (boms : List (List UInt8 × EncodingId)) (mark : List UInt8)
    {real : EncodingId} (nonempty : mark ++ bytes ≠ [])
    (found : (boms.find? fun bom => bom.1.isPrefixOf (mark ++ bytes)) = some (mark, real))
    (chars : (unitSpans t real bytes).map Prod.fst = cs.map .char) :
    (bomSpans t boms (mark ++ bytes)).map Prod.fst = cs.map .char := by
  unfold bomSpans
  rw [if_neg nonempty, found]
  dsimp only
  rw [drop_left]
  cases units : unitSpans t real bytes with
  | nil | cons unit rest =>
    rw [units] at chars
    exact chars

theorem faithful_plain : ∀ target ∈ faithfulTargets, (new target).jis = none ∧
    isRegisteredOnly (new target).target = false ∧
    isRegisteredOnly target = false ∧ target ≠ utf8Mac := by decide

theorem readsBack_faithful (listed : target ∈ faithfulTargets) :
    ReadsBack t (new target).target := by
  simp only [faithfulTargets, mem_cons, not_mem_nil, or_false] at listed
  rcases listed with rfl | rfl | rfl | rfl | rfl | rfl | rfl | rfl | rfl
  · exact readsBack_utf8
  · exact readsBack_wide (fun _ => rfl) fun _ => rfl
  · exact readsBack_wide (fun _ => rfl) fun _ => rfl
  · exact readsBack_wide (fun _ => rfl) fun _ => rfl
  · exact readsBack_wide (fun _ => rfl) fun _ => rfl
  · exact readsBack_wide (fun _ => rfl) fun _ => rfl
  · exact readsBack_wide (fun _ => rfl) fun _ => rfl
  · exact readsBack_narrow narrow_usAscii (by decide) fun _ _ small =>
      congrArg (Prod.mk 1) (if_pos small)
  · exact readsBack_narrow narrow_iso88591 le_rfl fun _ _ _ => rfl

def written (t : Tables) (cs : List Char) (target : EncodingId) : List UInt8 :=
  (TranscodeState.new target).bom ++ encodeText t cs (TranscodeState.new target).target

theorem decodeSpans_written (listed : target ∈ faithfulTargets)
    (all : ∀ c ∈ cs, (encodeChar t c (new target).target).isSome) :
    (decodeSpans t (written t cs target) target).map Prod.fst = cs.map .char := by
  have units := unitSpans_encodeText (readsBack_faithful listed) all
  simp only [faithfulTargets, mem_cons, not_mem_nil, or_false] at listed
  rcases listed with rfl | rfl | rfl | rfl | rfl | rfl | rfl | rfl | rfl
  · exact units
  · exact units
  · exact units
  · exact units
  · exact units
  · exact bomSpans_chars utf16Boms [0xFE, 0xFF] (cons_ne_nil _ _) rfl units
  · exact bomSpans_chars utf32Boms [0x00, 0x00, 0xFE, 0xFF] (cons_ne_nil _ _) rfl units
  · exact units
  · exact units

/-- What a text is in its target: valid, with one range per character. -/
def OneRangeEach (id : EncodingId) (bytes : List UInt8) (cs : List Char) : Prop :=
  computeCoderange bytes (EncodingId.encoding id) ≠ .broken ∧
    (charRanges (EncodingId.kind id) bytes).length = cs.length

theorem oneRangeEach_utf8 (cs : List Char) : OneRangeEach utf8 (encode cs) cs := by
  have valid : valid (encode cs) = true := by
    refine valid_of_spells fun u mem => ?_
    obtain ⟨c, -, rfl⟩ := mem_map.mp mem
    exact ⟨c, spells_encode c⟩
  have stand : ∀ p ∈ cs.map fun c => (String.utf8EncodeChar c, ()), Stands utf8CharScan p := by
    intro p mem
    obtain ⟨c, -, rfl⟩ := mem_map.mp mem
    exact utf8CharScan_stands (spells_encode c)
  have cuts := cuts_of_stands stand
  rw [map_map, show (Prod.fst ∘ fun c => (String.utf8EncodeChar c, ())) =
    String.utf8EncodeChar from rfl, ← flatMap_def] at cuts
  constructor
  · change (if _ then CodeRange.sevenBit else if Utf8.valid (Utf8.encode cs) then .valid
      else .broken) ≠ .broken
    split <;> decide
  · change ((scan utf8CharScan (encode cs)).map Span.bounds).length = cs.length
    unfold encode
    rw [cuts.map_bounds, length_boundsOf, length_map, length_map]

theorem oneRangeEach_wide {w : Wide}
    (ranges : ∀ bs, charRanges (kind id) bs = (wideRanges w bs).map Span.bounds)
    (codes : ∀ bs, computeCoderange bs (encoding id) =
      if (wideRanges w bs).all fun s => s.info.1.isSome then .valid else .broken)
    (cs : List Char) : OneRangeEach id (cs.flatMap (wideEncodeChar w)) cs := by
  have stand : ∀ p ∈ cs.map fun c => (wideEncodeChar w c, some c, InvalidStyle.plain),
      Stands (wideScan w) p := by
    intro p mem
    obtain ⟨c, -, rfl⟩ := mem_map.mp mem
    refine ⟨(wideSource_encode w c).1, fun rest => ?_⟩
    unfold wideScan
    rw [wideUnit_encode]
  have cuts := cuts_of_stands stand
  rw [map_map, show (Prod.fst ∘ fun c => (wideEncodeChar w c, some c, InvalidStyle.plain)) =
    wideEncodeChar w from rfl, ← flatMap_def] at cuts
  constructor
  · have allScalars : ((wideRanges w (cs.flatMap (wideEncodeChar w))).all
        fun s => s.info.1.isSome) = true :=
      (cuts.all_info fun info => info.1.isSome).mpr fun p mem => by
        obtain ⟨c, -, rfl⟩ := mem_map.mp mem
        rfl
    rw [codes, if_pos allScalars]
    decide
  · rw [ranges]
    unfold wideRanges
    rw [cuts.map_bounds, length_boundsOf, length_map, length_map]

theorem length_bytewise (bytes : List UInt8) :
    ((List.range bytes.length).map fun i => (i, i + 1)).length = bytes.length := by
  rw [length_map, length_range]

theorem length_encodeText (one : ∀ c ∈ cs, ∃ b, encodeChar t c id = some [b]) :
    (encodeText t cs id).length = cs.length := by
  induction cs with
  | nil => rfl
  | cons c cs ih =>
    obtain ⟨⟨b, encoded⟩, others⟩ := forall_mem_cons.mp one
    have later := ih others
    rw [encodeText, flatMap_cons, encoded, ← encodeText, length_append, later]
    exact Nat.add_comm 1 cs.length

theorem oneRangeEach_usAscii (all : ∀ c ∈ cs, (encodeChar t c usAscii).isSome) :
    OneRangeEach usAscii (encodeText t cs usAscii) cs := by
  have each := fun c mem => narrow_usAscii.encoded (all c mem)
  constructor
  · have low : ((encodeText t cs usAscii).all fun b => b.toNat < 0x80) = true := by
      refine all_eq_true.mpr fun b mem => decide_eq_true ?_
      obtain ⟨c, listed, inside⟩ := mem_flatMap.mp mem
      obtain ⟨small, encoded⟩ := each c listed
      rw [encoded] at inside
      rw [mem_singleton.mp inside, toNat_ofNat']
      omega
    have seven : computeCoderange (encodeText t cs usAscii) (encoding usAscii) =
        .sevenBit := if_pos low
    rw [seven]
    decide
  · exact (length_bytewise _).trans (length_encodeText fun c mem => ⟨_, (each c mem).2⟩)

theorem oneRangeEach_iso88591 (all : ∀ c ∈ cs, (encodeChar t c iso88591).isSome) :
    OneRangeEach iso88591 (encodeText t cs iso88591) cs := by
  constructor
  · change (if _ then CodeRange.sevenBit else .valid) ≠ .broken
    split <;> decide
  · exact (length_bytewise _).trans
      (length_encodeText fun c mem => ⟨_, (narrow_iso88591.encoded (all c mem)).2⟩)

/-- What a target wrote is valid in it. It has one range per character, except in the rows that
carry a mark, which have no characters of their own: there it has one per byte. -/
theorem ranges_written (listed : target ∈ faithfulTargets)
    (all : ∀ c ∈ cs, (encodeChar t c (new target).target).isSome) :
    computeCoderange (written t cs target) (encoding target) ≠ .broken ∧
      (charRanges (kind target) (written t cs target)).length =
        if carriesBom target then (written t cs target).length else cs.length := by
  have dummy : ∀ bytes : List UInt8, (if false && bytes.all fun b => decide (b.toNat < 0x80) then
      CodeRange.sevenBit else .valid) ≠ .broken := fun _ => by
    rw [Bool.false_and]
    decide
  simp only [faithfulTargets, mem_cons, not_mem_nil, or_false] at listed
  rcases listed with rfl | rfl | rfl | rfl | rfl | rfl | rfl | rfl | rfl
  · exact oneRangeEach_utf8 cs
  · exact oneRangeEach_wide (fun _ => rfl) (fun _ => rfl) cs
  · exact oneRangeEach_wide (fun _ => rfl) (fun _ => rfl) cs
  · exact oneRangeEach_wide (fun _ => rfl) (fun _ => rfl) cs
  · exact oneRangeEach_wide (fun _ => rfl) (fun _ => rfl) cs
  · exact ⟨dummy _, length_bytewise _⟩
  · exact ⟨dummy _, length_bytewise _⟩
  · exact oneRangeEach_usAscii all
  · exact oneRangeEach_iso88591 all

/-- A text transcoded from UTF-8 to a Unicode encoding, US-ASCII or ISO-8859-1 transcodes back to
its bytes, and is valid in the target. It has one character range per scalar, except in the rows
`UTF-16` and `UTF-32`, whose strings have one per byte. -/
theorem transcode_roundTrip (t : Tables) (cs : List Char) (target : EncodingId)
    (listed : target ∈ faithfulTargets) (out : List UInt8)
    (encodes : transcode t (Utf8.encode cs) utf8 target {} none = .ok out) :
    transcode t out target utf8 {} none = .ok (Utf8.encode cs) ∧
      computeCoderange out (EncodingId.encoding target) ≠ .broken ∧
      (charRanges (EncodingId.kind target) out).length =
        if carriesBom target then out.length else cs.length := by
  obtain ⟨plain, known, readable, notMac⟩ := faithful_plain target listed
  obtain ⟨utf8Plain, utf8Known, utf8Readable, utf8NotMac⟩ := faithful_plain utf8 (by decide)
  have holds : ∀ c ∈ cs, (encodeChar t c utf8).isSome := fun _ _ => rfl
  have forth := decodeSpans_written (show utf8 ∈ faithfulTargets by decide) holds
  obtain ⟨all, rfl⟩ := (transcode_chars utf8Readable utf8NotMac plain known forth out).mp encodes
  have back := decodeSpans_written listed all
  refine ⟨?_, ranges_written listed all⟩
  exact (transcode_chars readable notMac utf8Plain utf8Known back _).mpr ⟨holds, rfl⟩

/-- The round trip of `"a𝄞"` through UTF-16LE, a surrogate pair being one range. -/
theorem transcode_roundTrip_clef :
    transcode noTables (Utf8.encode ['a', Char.ofNat 0x1D11E]) utf8 utf16le {} none =
        .ok [0x61, 0x00, 0x34, 0xD8, 0x1E, 0xDD] ∧
      transcode noTables [0x61, 0x00, 0x34, 0xD8, 0x1E, 0xDD] utf16le utf8 {} none =
        .ok (Utf8.encode ['a', Char.ofNat 0x1D11E]) ∧
      (charRanges (EncodingId.kind utf16le) [0x61, 0x00, 0x34, 0xD8, 0x1E, 0xDD]).length = 2 := by
  have encodes : transcode noTables (Utf8.encode ['a', Char.ofNat 0x1D11E]) utf8 utf16le {} none =
      .ok [0x61, 0x00, 0x34, 0xD8, 0x1E, 0xDD] := by decide
  obtain ⟨back, -, ranges⟩ := transcode_roundTrip noTables _ utf16le (by decide) _ encodes
  exact ⟨encodes, back, ranges⟩

/-- `"a"` in `UTF-16` is a mark and one code unit: four ranges for one scalar. -/
theorem utf16_ranges_per_byte :
    transcode noTables (Utf8.encode ['a']) utf8 utf16 {} none = .ok [0xFE, 0xFF, 0x00, 0x61] ∧
      (charRanges (EncodingId.kind utf16) [0xFE, 0xFF, 0x00, 0x61]).length = 4 := by
  decide

/-- A text that went through one of these encodings on its way is taken by the same targets and
comes out the same. -/
theorem transcode_through (t : Tables) (cs : List Char) (middle target : EncodingId)
    (listed : middle ∈ faithfulTargets)
    (known : isRegisteredOnly (TranscodeState.new target).target = false) (out result : List UInt8)
    (encodes : transcode t (Utf8.encode cs) utf8 middle {} none = .ok out) :
    transcode t out middle target {} none = .ok result ↔
      transcode t (Utf8.encode cs) utf8 target {} none = .ok result := by
  obtain ⟨plain, middleKnown, readable, notMac⟩ := faithful_plain middle listed
  have forth : (decodeSpans t (Utf8.encode cs) utf8).map Prod.fst = cs.map .char :=
    decodeSpans_written (by decide) fun _ _ => rfl
  obtain ⟨all, rfl⟩ :=
    (transcode_chars (by decide) (by decide) plain middleKnown forth out).mp encodes
  have back := decodeSpans_written listed all
  exact (transcode_emits readable notMac known back result).trans
    (transcode_emits (by decide) (by decide) known forth result).symm

/-- `"é"` through UTF-16LE to ISO-8859-1. -/
theorem transcode_through_accent :
    transcode noTables [0xE9, 0x00] utf16le iso88591 {} none = .ok [0xE9] :=
  (transcode_through noTables ['é'] utf16le iso88591 (by decide) (by decide) _ _ (by decide)).mpr
    (by decide)

/-- The mode in which the loop of `decode_units` ends. -/
def endMode (t : Tables) : Nat → Mode → List UInt8 → Mode
  | 0, mode, _ => mode
  | fuel + 1, mode, bytes =>
    if bytes = [] then mode
    else endMode t fuel (jisTurn t mode bytes).2.1 (bytes.drop (jisTurn t mode bytes).1)

/-- From a mode the bytes are read as these units, and the mode at their end is ASCII. -/
def ReadsAs (t : Tables) (mode : Mode) (bytes : List UInt8) (units : List SourceUnit) : Prop :=
  ∀ fuel held, bytes.length ≤ fuel →
    (jisLoop t fuel mode held bytes).map Prod.fst = units ∧ endMode t fuel mode bytes = .ascii

/-- What the two-byte maps of EUC-JP promise: a pair that is written ends below 0xFF, and none reads
as an ASCII character. -/
structure PairsWide (t : Tables) : Prop where
  narrow : ∀ c a b, t.mbEncodeChar .eucJp c = some [a, b] → a.toNat ≤ 0xFE ∧ b.toNat ≤ 0xFE
  wide : ∀ c a b, t.mbDecodeSeq .eucJp [a, b] = some c → 0x80 ≤ c.val.toNat

/-- The unit that the pair written for a character is read as. -/
def readBack (t : Tables) (c : Char) : SourceUnit :=
  if c.val.toNat < 0x80 then .char c
  else
    match t.mbEncodeChar .eucJp c with
    | some [a, b] =>
      match t.mbDecodeSeq .eucJp [a, b] with
      | some d => .char d
      | none => .unmapped [a &&& 0x7F, b &&& 0x7F]
    | _ => .unmapped []

variable {mode after : Mode} {bytes rest : List UInt8} {units : List SourceUnit}

theorem ReadsAs.turn (chunk : List UInt8) (unit : Option SourceUnit) (some_ : chunk ≠ [])
    (turn : jisTurn t mode (chunk ++ rest) = (chunk.length, after, unit))
    (later : ReadsAs t after rest units) :
    ReadsAs t mode (chunk ++ rest) (unit.toList ++ units) := by
  intro fuel held enough
  have positive := length_pos_iff.mpr some_
  rw [length_append] at enough
  obtain ⟨fuel, rfl⟩ : ∃ n, fuel = n + 1 := ⟨fuel - 1, by omega⟩
  have left := fun held => later fuel held (by omega)
  have ends := (left 0).2
  rw [jisLoop, endMode, turn]
  cases unit <;> simp [some_, left, ends]

/-- The escape that an encoder writes brings the decoder to the same mode. -/
theorem ReadsAs.enter {e : Encoder} (escapes : mode ≠ .kana) (later : ReadsAs t mode rest units) :
    ReadsAs t e.mode ((e.enter mode).2 ++ rest) units := by
  unfold Encoder.enter
  split
  · rename_i same
    rw [same]
    exact later
  · cases mode with
    | ascii => exact later.turn [0x1B, 0x28, 0x42] none (cons_ne_nil _ _) rfl
    | kanji => exact later.turn [0x1B, 0x24, 0x42] none (cons_ne_nil _ _) rfl
    | kana => exact absurd rfl escapes

theorem Encoder.enter_fst (e : Encoder) (mode : Mode) : (e.enter mode).1 = { e with mode } := by
  unfold Encoder.enter
  split
  · rename_i same
    rw [← same]
  · rfl

theorem high_bit (a : UInt8) (low : 0xA1 ≤ a.toNat) (high : a.toNat ≤ 0xFE) :
    a &&& 0x7F ≠ 0x1B ∧ within (a &&& 0x7F) 0x21 0x7E = true ∧ (a &&& 0x7F) ||| 0x80 = a := by
  revert a
  decide +kernel

/-- What an encoder writes for a character is read as one unit from its mode, and leaves the decoder
in the mode of the encoder. -/
theorem ReadsAs.push (pairs : PairsWide t) {e e' : Encoder}
    (kanaOff : e.emitHalfwidth = false) (notEscape : c ≠ '\x1b')
    (pushed : e.push t c = some (e', bytes)) :
    e'.emitHalfwidth = false ∧
      ∀ rest units, ReadsAs t e'.mode rest units →
        ReadsAs t e.mode (bytes ++ rest) (readBack t c :: units) := by
  simp only [Encoder.push, Encoder.put, Encoder.enter_fst] at pushed
  split at pushed
  · rename_i small
    obtain ⟨rfl, rfl⟩ := Prod.mk.inj (Option.some.inj pushed)
    refine ⟨kanaOff, fun rest units later => ?_⟩
    have value := toNat_ofNat_val (show c.val.toNat < 0x100 by omega)
    have plain : ofNat c.val.toNat ≠ 0x1B := by
      intro same
      rw [same] at value
      exact notEscape (Char.ext (UInt32.toNat_inj.mp value.symm))
    rw [append_assoc, readBack, if_pos small]
    refine ReadsAs.enter nofun (later.turn [_] (some (.char c)) (cons_ne_nil _ _) ?_)
    unfold jisTurn
    rw [singleton_append]
    dsimp only
    rw [if_neg plain, value, if_pos small, byteChar_ofNat (by omega)]
    rfl
  · rename_i large
    rw [kanaOff] at pushed
    simp only [Bool.not_false, if_true] at pushed
    split at pushed
    · cases pushed
    split at pushed
    · rename_i a b written
      split at pushed
      · rename_i high
        obtain ⟨rfl, rfl⟩ := Prod.mk.inj (Option.some.inj pushed)
        refine ⟨rfl, fun rest units later => ?_⟩
        obtain ⟨aTop, bTop⟩ := pairs.narrow c a b written
        obtain ⟨plain, lead, a'⟩ := high_bit a high.1 aTop
        obtain ⟨-, trail, b'⟩ := high_bit b high.2 bTop
        rw [append_assoc, readBack, if_neg large, written]
        refine ReadsAs.enter nofun (later.turn [_, _] (some _) (cons_ne_nil _ _) ?_)
        cases read : t.mbDecodeSeq .eucJp [a, b] <;>
          simp [jisTurn, plain, lead, trail, a', b', read]
      · cases pushed
    · cases pushed

/-- A text that ISO-2022-JP takes is read as one unit a character from the mode of the encoder. -/
theorem ReadsAs.emits (pairs : PairsWide t) {state last : TranscodeState} {e : Encoder}
    (encoder : state.jis = some e) (kanaOff : e.emitHalfwidth = false) (plain : '\x1b' ∉ cs)
    (emitted : emits t state cs = some (last, bytes)) (closed : state.closeQuote = false) :
    ReadsAs t e.mode (bytes ++ (last.finish t).2) (cs.map (readBack t)) := by
  induction cs generalizing state e bytes with
  | nil =>
    obtain ⟨rfl, rfl⟩ := Prod.mk.inj (Option.some.inj emitted)
    have ends : ReadsAs t .ascii [] [] := fun fuel _ _ => by cases fuel <;> exact ⟨rfl, rfl⟩
    simpa [TranscodeState.finish, encoder, closed, Encoder.finish] using ends.enter (by decide)
  | cons c cs ih =>
    obtain ⟨notEscape, plain⟩ := not_or.mp (mem_cons.not.mp plain)
    rw [Enc.emits, emit, encoder] at emitted
    cases pushed : e.push t c with
    | none => simp [pushed] at emitted
    | some result =>
      obtain ⟨e', chunk⟩ := result
      simp only [pushed, if_true, Option.map_eq_some_iff] at emitted
      obtain ⟨⟨_, later⟩, emitted, same⟩ := emitted
      obtain ⟨rfl, rfl⟩ := Prod.mk.inj same
      obtain ⟨kanaOff', reads⟩ := ReadsAs.push pairs kanaOff (Ne.symm notEscape) pushed
      rw [append_assoc]
      exact reads _ _ (ih rfl kanaOff' plain emitted closed)

theorem ofNat_ne_escape {n : Nat} (other : n ≠ 0x1B) : Char.ofNat n ≠ '\x1b' := by
  intro same
  have value := congrArg Char.toNat same
  rw [Char.toNat_ofNat] at value
  split at value
  · exact other value
  · cases value

/-- The decoder takes an escape character as the beginning of an escape, never as itself. -/
theorem jisTurn_ne_escape (pairs : PairsWide t) (mode : Mode) (bytes : List UInt8) :
    (jisTurn t mode bytes).2.2 ≠ some (.char '\x1b') := by
  unfold jisTurn
  repeat' split
  all_goals try simp
  · rename_i b _ notEscape _ _
    exact fun same => ofNat_ne_escape (fun value => notEscape (UInt8.toNat_inj.mp value))
      (SourceUnit.char.inj same)
  · rename_i read
    rintro rfl
    exact absurd (pairs.wide _ _ _ read) (by decide)
  · exact ofNat_ne_escape (by omega)

theorem escape_not_read (pairs : PairsWide t) (fuel : Nat) (mode : Mode) (held : Nat)
    (bytes : List UInt8) : .char '\x1b' ∉ (jisLoop t fuel mode held bytes).map Prod.fst := by
  induction fuel generalizing mode held bytes with
  | zero => exact not_mem_nil
  | succ fuel ih =>
    have notHere := jisTurn_ne_escape pairs mode bytes
    unfold jisLoop
    split
    · exact not_mem_nil
    · split
      · exact ih _ _ _
      · rename_i turn
        rw [turn] at notHere
        rw [map_cons, mem_cons, not_or]
        exact ⟨fun same => notHere (congrArg some same.symm), ih _ _ _⟩

/-- The bytes are read as the text, and the mode at their end is ASCII. -/
def JisRoundTrip (t : Tables) (text : List Char) (bytes : List UInt8) : Prop :=
  (decodeUnits t bytes).map Prod.fst = text.map .char ∧
    endMode t bytes.length .ascii bytes = .ascii

/-- A text that ISO-2022-JP takes is read back from it exactly when it has no escape character, which
is copied to the output as it is, and the pair written for each of its characters reads as it. -/
theorem jisRoundTrip_iff (pairs : PairsWide t) {text : List Char}
    (accepted : transcode t (encode text) utf8 iso2022jp {} none = .ok bytes) :
    JisRoundTrip t text bytes ↔ '\x1b' ∉ text ∧ ∀ c ∈ text, readBack t c = .char c := by
  have notRead := escape_not_read pairs bytes.length .ascii 0 bytes
  have chars : (decodeSpans t (encode text) utf8).map Prod.fst = text.map .char :=
    decodeSpans_written (by decide) fun _ _ => rfl
  obtain ⟨last, written, emitted, rfl⟩ :=
    (transcode_emits rfl (by decide) (by decide) chars bytes).mp accepted
  have reads := fun plain => ReadsAs.emits pairs rfl rfl plain emitted rfl _ 0 le_rfl
  constructor
  · rintro ⟨read, -⟩
    rw [← decodeUnits, read] at notRead
    have plain : '\x1b' ∉ text := fun listed => notRead (mem_map_of_mem listed)
    exact ⟨plain, map_inj_left.mp ((reads plain).1.symm.trans read)⟩
  · rintro ⟨plain, kept⟩
    exact ⟨(reads plain).1.trans (map_inj_left.mpr kept), (reads plain).2⟩

/-- The tables with one kana in them, as EUC-JP has it. -/
def kanaTables : Tables :=
  { noTables with
    backendDecode := fun _ seq => if seq = [0xA4, 0xA2] then some ['あ'] else none
    allow := fun _ => [('あ', [0xA4, 0xA2])] }

theorem kanaTables_wide : PairsWide kanaTables where
  narrow c a b written := by
    unfold Tables.mbEncodeChar kanaTables noTables at written
    by_cases kana : c = 'あ'
    · subst kana
      obtain ⟨rfl, rfl⟩ : 0xA4 = a ∧ 0xA2 = b := by simpa using written
      decide
    · simp [lookup, beq_false_of_ne kana] at written
  wide c a b read := by
    unfold Tables.mbDecodeSeq kanaTables at read
    by_cases pair : [a, b] = [0xA4, 0xA2]
    · obtain rfl : 'あ' = c := by simpa [pair] using read
      decide
    · simp [pair] at read

theorem jisRoundTrip_kana :
    transcode kanaTables (encode ['あ']) utf8 iso2022jp {} none =
        .ok [0x1B, 0x24, 0x42, 0x24, 0x22, 0x1B, 0x28, 0x42] ∧
      JisRoundTrip kanaTables ['あ'] [0x1B, 0x24, 0x42, 0x24, 0x22, 0x1B, 0x28, 0x42] := by
  have accepted : transcode kanaTables (encode ['あ']) utf8 iso2022jp {} none =
      .ok [0x1B, 0x24, 0x42, 0x24, 0x22, 0x1B, 0x28, 0x42] := by decide
  exact ⟨accepted, (jisRoundTrip_iff kanaTables_wide accepted).mpr
    ⟨by decide, forall_mem_singleton.mpr (by decide)⟩⟩

end Zeo.Enc
