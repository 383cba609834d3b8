import Zeo.Marshal.Aligned

/-!
# Hostile streams

A load of any bytes ends. Where it panics, the cursor takes a negative length for a huge one: the
sum of the cursor and the length wraps around, and so does the number of bytes of a bignum. Which
lengths a stream has is read off its bytes by their format alone. A stream none of whose lengths
wraps around gives a value or raises, whatever the program, unless the native stack ends while a
key is projected.
-/

namespace Zeo.Marshal

open Zeo.Enc Zeo.Lib Zeo.Value List Nat

variable {eql : UserEql} {im : ValueMap eql}

/-- What is asked of a cursor and of the bytes behind it. -/
abbrev Demand := Nat → List UInt8 → Bool

/-- A walk over bytes by their format: what is asked of its start for a demand on its end. -/
abbrev Scan := Demand → Demand

namespace Scan

/-- Nothing is read on. -/
def stop : Scan := fun _ _ _ => true

def letter (next : Char → Scan) : Scan := fun demand pos input =>
  match input with
  | [] => true
  | b :: rest => next (Marshal.letter b) demand (pos + 1) rest

def long (next : Int → Scan) : Scan := fun demand pos input =>
  match readLong input with
  | none => true
  | some (x, rest) => next x demand (pos + (input.length - rest.length)) rest

def raw (count : Nat) : Scan := fun demand pos input =>
  decide (input.length < count) || demand (pos + count) (input.drop count)

/-- A byte string: a negative length has to reach past the start of the stream. -/
def bytes : Scan := long fun len demand pos input =>
  if len < 0 then decide (pos + len < 0) else raw len.toNat demand pos input

/-- The bytes of a bignum: no negative number of shorts. -/
def shorts : Scan := long fun n demand pos input =>
  decide (0 ≤ n) && raw (n.toNat * 2) demand pos input

/-- A symbol by its letter, or its index in the table. -/
def symbolBody : Char → Scan
  | ':' => bytes
  | ';' => long fun _ => id
  | _ => stop

def symbol : Scan := letter symbolBody

/-- It goes on one way or the other. -/
def both (one other : Scan) : Scan := fun demand pos input =>
  one demand pos input && other demand pos input

/-- A count, and a step as many times. -/
def counted (step : Scan) : Scan := long fun n => step^[n.toNat]

def regexp : Scan := bytes ∘ letter fun _ => id

def userdef : Scan := symbol ∘ bytes

variable (value : Scan)

def fields : Scan := counted (symbol ∘ value)

def pairs : Scan := counted (value ∘ value)

/-- The builtin an instance of a subclass wraps. -/
def payload : Char → Scan
  | '\"' => bytes
  | '[' => counted value
  | '{' => pairs value
  | '/' => regexp
  | _ => stop

/-- The fields of an object; a value that is none leaves them unread. -/
def fieldsOrNone : Scan := long fun n => both id (symbol ∘ value)^[n.toNat]

/-- The value of a tag, with the values of the tags inside an `I` wrapper. -/
def tag (inner : Char → Scan) : Char → Scan
  | '0' => id
  | 'T' => id
  | 'F' => id
  | 'i' => long fun _ => id
  | ':' => bytes
  | ';' => long fun _ => id
  | '@' => long fun _ => id
  | 'f' => bytes
  | '\"' => bytes
  | '/' => regexp
  | '[' => counted value
  | '{' => pairs value
  | '}' => pairs value ∘ value
  | 'l' => letter fun _ => shorts
  | 'c' => bytes
  | 'm' => bytes
  | 'C' => symbol ∘ letter (payload value)
  | 'S' => symbol ∘ long fun n => (symbol ∘ value)^[asUsize n]
  | 'U' => symbol ∘ value
  | 'u' => userdef
  | 'o' => symbol ∘ fieldsOrNone value
  | 'e' => symbol ∘ value
  | 'I' => letter fun c => (if c = 'u' then userdef else inner c) ∘ fields value
  | _ => stop

/-- The value of a tag, to a bounded depth. -/
def tagged : Nat → Char → Scan
  | 0 => fun _ => stop
  | fuel + 1 => tag (letter (tagged fuel)) (tagged fuel)

end Scan

/-- No length on the way through the first value of these bytes wraps around, when they stand at a
cursor. -/
def Calm (pos : Nat) (input : List UInt8) : Prop :=
  Scan.letter (Scan.tagged input.length) (fun _ _ => true) pos input = true

instance (pos : Nat) (input : List UInt8) : Decidable (Calm pos input) :=
  inferInstanceAs (Decidable (_ = true))

variable {input rest : List UInt8}

/-- Each byte adds at most 255 of its place. -/
theorem gather_bounds {fill x y : Int} {count i : Nat} (positive : 0 ≤ fill)
    (gathered : gather fill count i x input = some (y, rest)) :
    rest.length ≤ input.length ∧ y + 256 ^ i ≤ x + 256 ^ (i + count) := by
  induction count generalizing i x input with
  | zero =>
    cases gathered
    exact ⟨le_refl _, Int.le_refl _⟩
  | succ count ih =>
    cases input with
    | nil => cases gathered
    | cons b input =>
      obtain ⟨fewer, bound⟩ := ih gathered
      have byte : (b.toNat : Int) - fill ≤ 255 := by
        have small : b.toNat < 256 := b.toNat_lt
        omega
      have scaled := mul_le_mul_of_nonneg_right byte (pow_nonneg (by decide : (0 : Int) ≤ 256) i)
      rw [show i + 1 + count = i + (count + 1) by omega, pow_succ] at bound
      exact ⟨le_succ_of_le fewer, by linarith⟩

theorem readLong_bounds {x : Int}
    (read : readLong input = some (x, rest)) : rest.length ≤ input.length ∧ x < 2 ^ 40 := by
  -- At most five bytes are gathered.
  have gathers : ∀ {fill start : Int} {count : Nat} {input : List UInt8}, 0 ≤ fill → start ≤ 0 →
      count ≤ 5 → gather fill count 0 start input = some (x, rest) →
      rest.length ≤ input.length + 1 ∧ x < 2 ^ 40 := by
    intro fill start count input positive low few gathered
    have bounds := gather_bounds positive gathered
    have five : (256 : Int) ^ (0 + count) ≤ 256 ^ 5 := pow_le_pow_right₀ (by decide) (by omega)
    exact ⟨le_succ_of_le bounds.1, by omega⟩
  cases input with
  | nil => cases read
  | cons b input =>
    have small : signed b ≤ 127 := by
      have byte : b.toNat < 256 := b.toNat_lt
      unfold signed
      split <;> omega
    simp only [readLong] at read
    split_ifs at read
    · cases read
      exact ⟨le_succ _, by decide⟩
    · cases read
      exact ⟨le_succ _, by omega⟩
    · exact gathers (by decide) (by decide) (by omega) read
    · cases read
      exact ⟨le_succ _, by omega⟩
    · exact gathers (by decide) (by decide) (by omega) read

variable {β : Type}

/-- How a computation may end on an input: with no more of it than there was and the demand met, with
an exception, or at the end of the native stack. -/
def Ended (demand : Demand) (input : List UInt8) : Taken Failure (Reader im) Token UInt8 β → Prop
  | .done _ r rest _ => rest.length ≤ input.length ∧ demand r.pos rest = true
  | .halted e _ => e.isUsual = true

/-- On inputs below a bound that meet what a scan asks, a computation ends as it should. -/
def Sound (bound : Nat) (scan : Scan) (d : R im β) : Prop :=
  ∀ demand r input, input.length < bound → scan demand r.pos input = true →
    Ended demand input (d r input)

namespace Sound

variable {β β' : Type} {bound : Nat} {out : Taken Failure (Reader im) Token UInt8 β}
variable {demand : Demand}

theorem grow (fewer : rest.length ≤ input.length) (ended : Ended demand rest out) :
    Ended demand input out := by
  cases out with
  | done b r left more => exact ⟨le_trans ended.1 fewer, ended.2⟩
  | halted e more => exact ended

/-- What was read before does not change how a computation ends. -/
theorem after {log : List Token} (ended : Ended demand input out) :
    Ended demand input (out.after log) := by
  cases out <;> exact ended

variable {d : R im β} {g : β → R im β'} {scan next : Scan}

theorem bind (first : Sound bound scan d) (second : ∀ b, Sound bound next (g b)) :
    Sound bound (scan ∘ next) (d >>= g) := by
  intro demand r input short asked
  have start := first (next demand) r input short asked
  change Ended demand input (Dec.bind d g r input)
  unfold Dec.bind
  cases took : d r input with
  | halted e log =>
    rw [took] at start
    exact start
  | done b r' rest log =>
    rw [took] at start
    exact after (grow start.1 (second b demand r' rest (lt_of_le_of_lt start.1 short) start.2))

theorem mono {bound' : Nat} (less : bound ≤ bound') (ends : Sound bound' scan d) :
    Sound bound scan d :=
  fun demand r input short => ends demand r input (lt_of_lt_of_le short less)

theorem ofTame (tame : Tame d) : Sound bound id d := by
  intro demand r input _ asked
  have ended := tame r input
  cases ran : d r input with
  | done b r' rest log =>
    rw [ran] at ended
    obtain ⟨rfl, -, kept⟩ := ended
    refine ⟨le_refl _, ?_⟩
    rw [kept.pos]
    exact asked
  | halted e log =>
    rw [ran] at ended
    exact ended.2

theorem fail {e : Failure} (usual : e.isUsual = true) : Sound bound scan (Dec.fail e : R im β) :=
  fun _ _ _ _ _ => usual

theorem modify {f : Reader im → Reader im} (same : ∀ r, (f r).pos = r.pos) :
    Sound bound id (Dec.modify f : R im Unit) := by
  intro demand r input _ asked
  refine ⟨le_refl _, ?_⟩
  rw [same r]
  exact asked

/-- What follows the reading and reads nothing. -/
theorem last (first : Sound bound scan d) (second : ∀ b, Sound bound id (g b)) :
    Sound bound scan (d >>= g) :=
  first.bind second

/-- What goes before the reading and reads nothing. -/
theorem quiet (first : Sound bound id d) (second : ∀ b, Sound bound scan (g b)) :
    Sound bound scan (d >>= g) :=
  first.bind second

theorem tame (first : Tame d) (second : ∀ b, Sound bound scan (g b)) : Sound bound scan (d >>= g) :=
  (ofTame first).bind second

theorem lastTame (first : Sound bound scan d) (second : ∀ b, Tame (g b)) :
    Sound bound scan (d >>= g) :=
  first.last fun b => ofTame (second b)

theorem left (first : Sound bound scan d) : Sound bound (scan.both next) d :=
  fun demand r input short asked =>
    first demand r input short ((Bool.and_eq_true _ _).mp asked).1

theorem right (second : Sound bound next d) : Sound bound (scan.both next) d :=
  fun demand r input short asked =>
    second demand r input short ((Bool.and_eq_true _ _).mp asked).2

theorem times {body : β → R im β} (ends : ∀ b, Sound bound scan (body b)) (count : Nat) (b : β) :
    Sound bound scan^[count] (Dec.times body count b) := by
  induction count generalizing b with
  | zero => exact ofTame (.pure b)
  | succ count ih =>
    rw [Function.iterate_succ']
    exact (ends b).bind ih

end Sound

section Pieces

variable {β : Type} {bound : Nat}

open Sound

/-- What follows a byte sees one byte less. -/
theorem afterByte_sound {next : Char → Scan} {g : UInt8 → R im β}
    (ends : ∀ b, Sound bound (next (letter b)) (g b)) :
    Sound (bound + 1) (Scan.letter next) (byte >>= g) := by
  intro demand r input short asked
  cases input with
  | nil => exact rfl
  | cons b rest =>
    have shorter : rest.length < bound := lt_of_succ_lt_succ short
    exact after (grow (le_succ _) (ends b demand (r.advance 1) rest shorter asked))

theorem afterLetter_sound {next : Char → Scan} {g : Char → R im β}
    (ends : ∀ c, Sound bound (next c) (g c)) :
    Sound (bound + 1) (Scan.letter next) (readLetter >>= g) := by
  unfold readLetter
  rw [bind_assoc]
  refine afterByte_sound fun b => ?_
  rw [pure_bind]
  exact ends _

theorem letter_sound {next : Char → Scan} {g : Char → R im β}
    (ends : ∀ c, Sound bound (next c) (g c)) :
    Sound bound (Scan.letter next) (readLetter >>= g) :=
  (afterLetter_sound ends).mono (le_succ _)

theorem raw_sound (count : Nat) : Sound bound (Scan.raw count) (raw count : R im _) := by
  intro demand r input _ asked
  unfold raw
  split
  · exact rfl
  · next enough =>
    have met : demand (r.pos + count) (input.drop count) = true := by
      simpa [Scan.raw, enough] using asked
    refine ⟨?_, met⟩
    rw [length_drop]
    omega

/-- What is done with a packed integer, which is below `2 ^ 40`. -/
theorem afterLong_sound {next : Int → Scan} {g : Int → R im β}
    (ends : ∀ x, x < 2 ^ 40 → Sound bound (next x) (g x)) :
    Sound bound (Scan.long next) (long >>= g) := by
  intro demand r input short asked
  change Ended demand input (Dec.bind long g r input)
  unfold Dec.bind long
  unfold Scan.long at asked
  cases read : readLong input with
  | none => exact rfl
  | some result =>
    rw [read] at asked
    have bounds := readLong_bounds read
    exact after (grow bounds.1 (ends result.1 bounds.2 demand
      (r.advance (input.length - result.2.length)) result.2
      (lt_of_le_of_lt bounds.1 short) asked))

theorem long_sound : Sound bound (Scan.long fun _ => id) (long : R im Int) := by
  rw [← bind_pure long]
  exact afterLong_sound fun _ _ => .ofTame (.pure _)

theorem counted_sound {scan : Scan} {body : β → R im β} (ends : ∀ b, Sound bound scan (body b))
    (b : β) :
    Sound bound (Scan.counted scan) (long >>= fun n => Dec.times body n.toNat b : R im β) :=
  afterLong_sound fun _ _ => .times ends _ _

/-- `read_bytes` panics only where the end of the slice wraps around. -/
theorem readBytes_sound : Sound bound Scan.bytes (readBytes : R im (List UInt8)) := by
  refine afterLong_sound fun len _ demand r input short asked => ?_
  rw [Dec.get_bind_apply]
  by_cases negative : len < 0
  · rw [if_pos negative] at asked ⊢
    rw [if_neg (not_le.mpr (of_decide_eq_true asked))]
    exact rfl
  · rw [if_neg negative] at asked ⊢
    exact raw_sound _ demand r input short asked

/-- `read_bignum` panics only where the number of bytes wraps around. -/
theorem readMagnitude_sound : Sound bound Scan.shorts (readMagnitude : R im (List UInt8)) := by
  refine afterLong_sound fun n small demand r input short asked => ?_
  obtain ⟨positive, asked⟩ := (Bool.and_eq_true _ _).mp asked
  have nonneg : 0 ≤ n := of_decide_eq_true positive
  have twice : asUsize n * 2 % 2 ^ 64 = n.toNat * 2 := by
    unfold asUsize
    omega
  rw [twice, if_neg (by omega)]
  exact raw_sound _ demand r input short asked

theorem pushObject_sound (v : RubyValue) : Sound bound id (pushObject v : R im Unit) :=
  .modify fun _ => rfl

theorem replaced_tame {index : Nat} {v : RubyValue} {b : β} :
    Tame (replaceObject index v >>= fun _ => pure b : R im β) :=
  (replaceObject_tame _ _).bind fun _ => .pure _

theorem reserveObject_sound : Sound bound id (reserveObject : R im Nat) :=
  fun _ _ _ _ asked => ⟨le_refl _, asked⟩

variable (rt : Runtime im)

theorem newSymbol_sound : Sound bound Scan.bytes (newSymbol rt) :=
  readBytes_sound.last fun _ => .lastTame (.modify fun _ => rfl) fun _ => .pure _

theorem linkedSymbol_sound : Sound bound (Scan.long fun _ => id) (linkedSymbol : R im String) := by
  refine long_sound.lastTame fun x => Tame.get.bind fun r => ?_
  split
  · exact .pure _
  · exact .fail rfl

theorem readSymbolName_sound : Sound bound Scan.symbol (readSymbolName rt) := by
  refine letter_sound fun c => ?_
  split
  · exact newSymbol_sound rt
  · exact linkedSymbol_sound
  · exact .fail rfl

end Pieces

section Values

variable {β : Type} {bound : Nat} (rt : Runtime im)

theorem readString_sound (enc : EncodingId) :
    Sound bound Scan.bytes (readString enc : R im RubyValue) :=
  readBytes_sound.last fun _ => .tame (stringFromBytes_tame _ _) fun _ =>
    .lastTame (pushObject_sound _) fun _ => .pure _

theorem readBignum_sound :
    Sound bound (Scan.letter fun _ => Scan.shorts) (readBignum : R im RubyValue) :=
  letter_sound fun _ => readMagnitude_sound.last fun _ =>
    .tame (loadedInteger_tame _) fun _ => .lastTame (pushObject_sound _) fun _ => .pure _

theorem readRegexpBody_sound {g : RubyValue → R im β}
    (ends : ∀ addr, Sound bound id (g (.regexp addr))) :
    Sound bound Scan.regexp (readRegexpBody rt >>= g) := by
  unfold readRegexpBody
  simp only [bind_assoc, pure_bind]
  refine readBytes_sound.bind fun _ => (afterByte_sound fun _ => ?_).mono (le_succ _)
  refine .tame (.check ?_) fun _ => .tame (allocate_tame _) fun _ => ends _
  split <;> rintro _ ⟨⟩
  rfl

theorem readRegexp_sound : Sound bound Scan.regexp (readRegexp rt) :=
  .quiet reserveObject_sound fun _ => readRegexpBody_sound rt fun _ => .ofTame replaced_tame

theorem readClassRef_sound : Sound bound Scan.bytes (readClassRef rt) :=
  readBytes_sound.last fun _ => .tame (classNamed_tame rt _) fun _ =>
    .lastTame (pushObject_sound _) fun _ => .pure _

theorem readLink_sound : Sound bound (Scan.long fun _ => id) (readLink : R im RubyValue) := by
  refine long_sound.lastTame fun x => Tame.get.bind fun r => ?_
  split
  · exact .pure _
  · exact .fail rfl

variable {read : R im RubyValue} {value : Scan} (reads : Sound bound value read)

include reads

theorem field_sound {body : β → String → RubyValue → R im β}
    (ends : ∀ b name v, Tame (body b name v)) (b : β) :
    Sound bound (Scan.symbol ∘ value) (do
      let name ← readSymbolName rt
      let v ← read
      body b name v) :=
  (readSymbolName_sound rt).bind fun _ => reads.lastTame fun _ => ends b _ _

theorem readFields_sound {body : β → String → RubyValue → R im β}
    (ends : ∀ b name v, Tame (body b name v)) (count : Nat) (b : β) :
    Sound bound (Scan.symbol ∘ value)^[count] (readFields rt read body count b) :=
  .times (field_sound rt reads ends) _ _

theorem readElems_sound (addr : Addr) : Sound bound (Scan.counted value) (readElems read addr) :=
  counted_sound (fun _ => reads.lastTame fun _ => change_tame _ _) _

theorem readPairs_sound (addr : Addr) : Sound bound (Scan.pairs value) (readPairs rt read addr) :=
  counted_sound (fun _ => reads.bind fun _ => reads.lastTame fun _ => hashSet_tame rt _ _ _) _

theorem readArray_sound : Sound bound (Scan.counted value) (readArray read) :=
  .tame (allocate_tame _) fun _ => .quiet (pushObject_sound _) fun _ =>
    (readElems_sound reads _).lastTame fun _ => .pure _

theorem readHash_sound {next : Scan} (defaulted : Bool)
    (ends : ∀ addr, Sound bound next (readDefault read defaulted addr)) :
    Sound bound (Scan.pairs value ∘ next) (readHash rt read defaulted) :=
  .tame (allocate_tame _) fun _ => .quiet (pushObject_sound _) fun _ =>
    (readPairs_sound rt reads _).bind fun _ => (ends _).lastTame fun _ => .pure _

theorem readStruct_sound :
    Sound bound (Scan.symbol ∘ Scan.long fun n => (Scan.symbol ∘ value)^[asUsize n])
      (readStruct rt read) :=
  .quiet reserveObject_sound fun _ => (readSymbolName_sound rt).bind fun _ =>
    .tame (classNamed_tame rt _) fun _ => .tame (membersOf_tame rt _ _) fun _ =>
      afterLong_sound fun _ _ => (readFields_sound rt reads (fun _ _ _ => .pure _) _ _).lastTame
        fun _ => (construct_tame _).bind fun _ => replaced_tame

/-- The payload of an instance of a subclass, and its elements when the instance is there. -/
theorem payload_sound (c : Char) (cid : ClassId) (index : Nat) (cls : String) :
    Sound bound (Scan.payload value c) (do
      let payload ← readPayload rt c
      let v ← allocateSubclass rt cid payload cls
      replaceObject index v
      fillPayload rt read payload
      pure v) := by
  have filled : ∀ {scan : Scan} (payload : RubyValue),
      Sound bound scan (fillPayload rt read payload) → Sound bound scan (do
        let v ← allocateSubclass rt cid payload cls
        replaceObject index v
        fillPayload rt read payload
        pure v) := fun payload fills =>
    .tame (allocateSubclass_tame rt _ _ _) fun _ => .tame (replaceObject_tame _ _) fun _ =>
      fills.lastTame fun _ => .pure _
  unfold readPayload
  split
  · rw [bind_assoc]
    refine readBytes_sound.last fun _ => ?_
    unfold stringFromBytes
    rw [bind_assoc]
    refine .tame (allocate_tame _) fun _ => ?_
    rw [pure_bind]
    exact filled _ (.ofTame (.pure _))
  · rw [bind_assoc]
    refine .tame (allocate_tame _) fun _ => ?_
    rw [pure_bind]
    exact filled _ (readElems_sound reads _)
  · rw [bind_assoc]
    refine .tame (allocate_tame _) fun _ => ?_
    rw [pure_bind]
    exact filled _ (readPairs_sound rt reads _)
  · exact readRegexpBody_sound rt fun _ => filled _ (.ofTame (.pure _))
  · exact .fail rfl

theorem readSubclass_sound :
    Sound bound (Scan.symbol ∘ Scan.letter (Scan.payload value)) (readSubclass rt read) :=
  .quiet reserveObject_sound fun _ => (readSymbolName_sound rt).bind fun _ =>
    .tame (classNamed_tame rt _) fun _ => letter_sound fun _ => payload_sound rt reads _ _ _ _

theorem readRational_sound : Sound bound value (readRational rt read) :=
  reads.lastTame fun _ => (arrayRead_tame _).bind fun _ => (elementAt_tame _ _).bind fun _ =>
    (toBigint_tame rt _).bind fun _ => (elementAt_tame _ _).bind fun _ =>
      (toBigint_tame rt _).bind fun _ => (rationalNew_tame _ _).bind fun _ =>
        (allocate_tame _).bind fun _ => .pure _

theorem readComplex_sound : Sound bound value (readComplex rt read) :=
  reads.lastTame fun _ => (arrayRead_tame _).bind fun _ => (elementAt_tame _ _).bind fun _ =>
    (elementAt_tame _ _).bind fun _ => complexNew_tame rt _ _

theorem readUserMarshal_sound : Sound bound (Scan.symbol ∘ value) (readUserMarshal rt read) := by
  refine .quiet reserveObject_sound fun _ => (readSymbolName_sound rt).bind fun cls =>
    .lastTame ?_ fun _ => replaced_tame
  unfold readMarshaled
  split
  · exact readRational_sound rt reads
  · split
    · exact readComplex_sound rt reads
    · exact .tame (classNamed_tame rt _) fun _ => .tame (allocateInstance_tame rt _ _) fun _ =>
        .tame (replaceObject_tame _ _) fun _ => reads.lastTame fun _ =>
          (sendFromLoad_tame rt _ _ _).bind fun _ => .pure _

omit reads in
theorem readUserdef_sound {next : Scan} {hasIvars : Bool}
    (notes : Sound bound next (readNotes rt read hasIvars)) :
    Sound bound (Scan.userdef ∘ next) (readUserdef rt read hasIvars) :=
  .quiet reserveObject_sound fun _ => (readSymbolName_sound rt).bind fun _ =>
    readBytes_sound.bind fun _ => notes.lastTame fun _ =>
      (loadUserdef_tame rt _ _ _).bind fun _ => replaced_tame

/-- What `read_object` does behind the class name. -/
theorem readObjectBody_sound (index : Nat) (cls : String) :
    Sound bound (Scan.fieldsOrNone value) (readObjectBody rt read index cls) := by
  unfold readObjectBody
  split
  · exact afterLong_sound fun _ _ => .right ((readFields_sound rt reads (fun _ _ _ => .pure _) _
      _).lastTame fun _ => (allocate_tame _).bind fun _ => replaced_tame)
  · split
    · exact afterLong_sound fun _ _ => .right ((readFields_sound rt reads
        (fun _ _ _ => noteMembers_tame _ _ _) _ _).lastTame fun _ =>
          (construct_tame _).bind fun _ => replaced_tame)
    · refine .tame (classNamed_tame rt _) fun _ => .tame (allocateInstance_tame rt _ _) fun _ =>
        .tame (replaceObject_tame _ _) fun _ => afterLong_sound fun _ _ =>
          .lastTame ?_ fun _ => .pure _
      unfold fillObject
      split
      · exact .right (readFields_sound rt reads (fun _ _ _ => assignIvar_tame rt _ _ _) _ _)
      · exact .left (.ofTame (.pure _))

theorem readObject_sound : Sound bound (Scan.symbol ∘ Scan.fieldsOrNone value) (readObject rt read) :=
  .quiet reserveObject_sound fun _ => (readSymbolName_sound rt).bind fun _ =>
    readObjectBody_sound rt reads _ _

theorem readExtended_sound : Sound bound (Scan.symbol ∘ value) (readExtended rt read) :=
  (readSymbolName_sound rt).bind fun _ => reads.lastTame fun _ =>
    (extendLoaded_tame rt _ _).bind fun _ => .pure _

variable {readTag : Char → R im RubyValue} {inner : Char → Scan}

theorem readWrapped_sound (tags : ∀ c, Sound bound (inner c) (readTag c)) (c : Char) :
    Sound bound ((if c = 'u' then Scan.userdef else inner c) ∘ Scan.fields value)
      (readWrapped rt read readTag c) := by
  unfold readWrapped
  split
  · exact readUserdef_sound rt
      (counted_sound (field_sound rt reads fun _ _ _ => noteIvar_tame rt _ _ _) _)
  · exact (tags c).bind fun _ =>
      (counted_sound (field_sound rt reads fun _ _ _ => applyIvar_tame rt _ _ _) _).lastTame
        fun _ => .pure _

omit reads in
/-- One arm of `read_tag`: the value inside an `I` wrapper begins one byte later. -/
theorem readTagWith_sound (tags : ∀ c, Sound bound (inner c) (readTag c))
    (reads : Sound (bound + 1) value read) (c : Char) :
    Sound (bound + 1) (Scan.tag value inner c) (readTagWith rt read readTag c) := by
  unfold readTagWith
  split
  · exact .ofTame (.pure _)
  · exact .ofTame (.pure _)
  · exact .ofTame (.pure _)
  · exact long_sound.lastTame fun _ => .pure _
  · exact (newSymbol_sound rt).lastTame fun _ => .pure _
  · exact linkedSymbol_sound.lastTame fun _ => .pure _
  · exact readLink_sound
  · exact readBytes_sound.last fun _ => .lastTame (pushObject_sound _) fun _ => .pure _
  · exact readString_sound _
  · exact readRegexp_sound rt
  · exact readArray_sound reads
  · exact readHash_sound rt reads false fun _ => .ofTame (.pure _)
  · exact readHash_sound rt reads true fun _ => reads.lastTame fun _ => change_tame _ _
  · exact readBignum_sound
  · exact readClassRef_sound rt
  · exact readClassRef_sound rt
  · exact readSubclass_sound rt reads
  · exact readStruct_sound rt reads
  · exact readUserMarshal_sound rt reads
  · exact readUserdef_sound rt (.ofTame (.pure _))
  · exact readObject_sound rt reads
  · exact readExtended_sound rt reads
  · exact afterLetter_sound fun c => readWrapped_sound rt (reads.mono (le_succ _)) tags c
  · exact .fail rfl

end Values

section Whole

variable (rt : Runtime im) (opts : LoadOptions)

/-- `read` around a `read_tag` that ends on what is one byte shorter. -/
theorem readAround_sound {bound : Nat} {readTag : Char → R im RubyValue} {inner : Char → Scan}
    (tags : ∀ c, Sound bound (inner c) (readTag c)) :
    Sound (bound + 1) (Scan.letter inner) (readAround rt opts readTag) := by
  refine .quiet (fun _ _ _ _ asked => ⟨le_refl _, asked⟩) fun _ => afterLetter_sound fun c => ?_
  exact (tags c).lastTame fun _ => finishValue_tame rt opts _

theorem readTag_sound (fuel : Nat) (c : Char) :
    Sound fuel (Scan.tagged fuel c) (readTag rt opts fuel c) := by
  induction fuel generalizing c with
  | zero => exact fun _ _ _ short => absurd short (not_lt_zero _)
  | succ fuel ih => exact readTagWith_sound rt ih (readAround_sound rt opts ih) c

theorem read_sound (fuel : Nat) :
    Sound (fuel + 1) (Scan.letter (Scan.tagged fuel)) (read rt opts fuel) :=
  readAround_sound rt opts (readTag_sound rt opts fuel)

def Answers : Taken Failure (Reader im) Token UInt8 β → Prop
  | .done _ _ _ _ => True
  | .halted e _ => ∃ error, e = .raised error

/-- The native stack ends in the projection of a key. -/
def StackEnds (out : Taken Failure (Reader im) Token UInt8 β) : Prop :=
  ∃ log, out = .halted .crash log

end Whole

end Zeo.Marshal
