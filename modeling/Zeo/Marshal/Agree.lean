import Zeo.Marshal.Aligned

/-!
# Every tag keeps the tables aligned

The remaining arms of the writer, and the theorem over whole dumps: whatever the reader reaches of
a dump, it has reached with the tables the writer had there.
-/

namespace Zeo.Marshal

open Zeo.Enc Zeo.Lib Zeo.Value List
open Follows (tame decAfter encGet register)

variable {eql : UserEql} {im : ValueMap eql}

section Arms

variable {rt : Runtime im} {opts : LoadOptions} {fuel owed : Nat} {w : Writer im} {r : Reader im}
variable {write : RubyValue → W im Unit}

theorem asUsize_natCast {count : Nat} (fits : LongFits count) : asUsize count = count := by
  obtain ⟨-, high⟩ := fits
  unfold asUsize
  omega

theorem bignumBytes_even (n : Int) : (bignumBytes n).length / 2 * 2 = (bignumBytes n).length := by
  unfold bignumBytes
  split
  · rw [length_append, length_singleton]
    omega
  · omega

theorem bignumBody_follows {strict : Bool} {β : Type} {g : Char → List UInt8 → R im β}
    {post : Unit → β → Writer im → Reader im → Prop} {n : Int}
    (after : ∀ w' r', Still w r w' r' → Follows (wire strict fuel) (pure () : W im Unit) w'
      (g (if n < 0 then '-' else '+') (bignumBytes n)) r' post) :
    Follows (wire strict fuel)
      (tag (if n < 0 then '-' else '+') >>= fun _ =>
        writeLong ((bignumBytes n).length / 2 : Nat) >>= fun _ => emit (.raw (bignumBytes n))) w
      (readLetter >>= fun sign => readMagnitude >>= g sign) r post := by
  refine .bind ((tag_follows (by split <;> decide)).mono ?_)
  rintro _ _ w₁ r₁ ⟨rfl, first⟩
  unfold readMagnitude
  rw [bind_assoc]
  refine .bind ((long_follows _).mono ?_)
  rintro _ _ w₂ r₂ ⟨rfl, fits, second⟩
  have small := fits.2
  have whole : asUsize ((bignumBytes n).length / 2 : Nat) * 2 % 2 ^ 64 = (bignumBytes n).length := by
    rw [asUsize_natCast fits, bignumBytes_even]
    omega
  rw [if_neg (by rw [whole]; have even := bignumBytes_even n; omega)]
  refine .decAfter ((raw_follows whole).mono ?_)
  rintro _ _ w₃ r₃ ⟨rfl, third⟩
  exact after w₃ r₃ ((first.trans second).trans third)

theorem writeBignum_aligned (n : Int) (aligned : Aligned 0 w r) :
    FollowsTag rt opts fuel (writeBignum n) w r := by
  refine Follows.take aligned fun w₁ owes => ?_
  refine tagRead 'l' (by decide) fun m _ w₂ r₂ still => ?_
  refine bignumBody_follows fun w₃ r₃ later => ?_
  refine tame (loadedInteger_tame _)
    ((owes.quiet still.toQuiet).quiet later.toQuiet) fun v r₄ here => ?_
  exact Follows.pay here fun r₅ paid => Follows.pure paid

theorem writeFloat_aligned (text : String) (aligned : Aligned 0 w r) :
    FollowsTag rt opts fuel (takeLink >>= fun _ => tag 'f' >>= fun _ => writeBytes (asBytes text))
      w r := by
  refine Follows.take aligned fun w₁ owes => ?_
  refine tagRead 'f' (by decide) fun m _ w₂ r₂ still => ?_
  refine decAfter ((bytes_follows _).mono ?_)
  rintro _ _ w₃ r₃ ⟨rfl, later⟩
  exact Follows.pay ((owes.quiet still.toQuiet).quiet later.toQuiet) fun r₄ paid => Follows.pure paid

theorem writeClass_aligned (v : RubyValue) (cid : ClassId) (aligned : Aligned 0 w r) :
    FollowsTag rt opts fuel (writeClass rt v cid) w r := by
  have inside : ∀ name m w r, Aligned 1 w r →
      Agrees m (writeBytes (asBytes name)) w (readClassRef rt) r := by
    intro name m w r owes
    refine decAfter ((bytes_follows _).mono ?_)
    rintro _ _ w₁ r₁ ⟨rfl, still⟩
    refine tame (classNamed_tame rt _) (owes.quiet still.toQuiet) fun cid r₂ here => ?_
    exact Follows.pay here fun r₃ paid => Follows.pure paid
  refine orLink_aligned aligned fun w r aligned => ?_
  refine register aligned fun w₁ owes => ?_
  by_cases isModule : rt.classIsModule cid = true
  · rw [if_pos isModule]
    refine tagRead 'm' (by decide) fun m _ w₂ r₂ still => ?_
    exact Follows.encCheck fun name _ => inside name m w₂ r₂ (owes.quiet still.toQuiet)
  · rw [if_neg isModule]
    refine tagRead 'c' (by decide) fun m _ w₂ r₂ still => ?_
    exact Follows.encCheck fun name _ => inside name m w₂ r₂ (owes.quiet still.toQuiet)

variable {value : W im Unit}

theorem readMarshaled_aligned (index : Nat) (cls : String) (aligned : Aligned 0 w r)
    (follows : ∀ r, Aligned 0 w r →
      Agrees fuel value w (read rt opts fuel) r) :
    Agrees fuel value w (readMarshaled rt (read rt opts fuel) index cls) r := by
  unfold readMarshaled
  split
  · refine decAfter ((follows r aligned).mono fun _ v w₁ r₁ here => ?_)
    refine tame (arrayRead_tame v) here fun array r₂ here => ?_
    refine tame (elementAt_tame _ _) here fun first r₃ here => ?_
    refine tame (toBigint_tame rt first) here fun num r₄ here => ?_
    refine tame (elementAt_tame _ _) here fun second r₅ here => ?_
    refine tame (toBigint_tame rt second) here fun den r₆ here => ?_
    refine tame (rationalNew_tame num den) here fun reduced r₇ here => ?_
    exact tame (allocate_tame _) here fun addr r₈ ends => Follows.pure ends
  · split
    · refine decAfter ((follows r aligned).mono fun _ v w₁ r₁ here => ?_)
      refine tame (arrayRead_tame v) here fun array r₂ here => ?_
      refine tame (elementAt_tame _ _) here fun real r₃ here => ?_
      refine tame (elementAt_tame _ _) here fun imag r₄ here => ?_
      exact Follows.tameLast (complexNew_tame rt real imag) here fun _ _ => id
    · refine tame (classNamed_tame rt cls) aligned fun cid r₁ here => ?_
      refine tame (allocateInstance_tame rt cid cls) here fun obj r₂ here => ?_
      refine tame (replaceObject_tame _ _) here fun _ r₃ here => ?_
      refine decAfter ((follows r₃ here).mono fun _ v w₄ r₄ here => ?_)
      exact tame (sendFromLoad_tame rt _ _ _) here fun _ r₅ ends => Follows.pure ends

/-- A class and the value dumped for an instance of it, behind the tag. -/
theorem userMarshal_aligned (name : String) (owes : Aligned 1 w r) (follows : ∀ w r, Aligned 0 w r →
      Agrees fuel value w (read rt opts fuel) r) :
    Agrees fuel (writeSymbol name >>= fun _ => value) w
      (readUserMarshal rt (read rt opts fuel)) r := by
  refine Follows.reserve owes fun index r₁ paid => ?_
  refine Follows.bind ((symbol_follows rt name paid.symbols).mono ?_)
  rintro _ _ w₂ r₂ ⟨rfl, quiet⟩
  refine decAfter ((readMarshaled_aligned index _ (paid.quiet quiet) (follows w₂)).mono ?_)
  intro _ v w₃ r₃ here
  exact tame (replaceObject_tame _ _) here fun _ r₄ ends => Follows.pure ends

variable {name : String}

section

variable (nests : Nests rt opts write)

include nests

theorem writeInlineArray_aligned (elems : List RubyValue) (aligned : Aligned 0 w r) :
    Agrees fuel (writeInlineArray write elems) w (read rt opts fuel) r := by
  refine value_aligned aligned fun w r aligned => ?_
  refine Follows.take aligned fun w₁ owes => ?_
  refine tagRead '[' (by decide) fun m _ w₂ r₂ still => ?_
  refine tame (allocate_tame _) (owes.quiet still.toQuiet) fun addr r₃ here => ?_
  refine Follows.pay here fun r₄ paid => ?_
  unfold readElems
  rw [bind_assoc]
  refine Follows.bind ((long_follows _).mono ?_)
  rintro _ _ w₅ r₅ ⟨rfl, -, still⟩
  refine decAfter (Follows.mono (Follows.each (fun _ _ => Aligned 0) _ (by simp) ?_
    (paid.quiet still.toQuiet)) ?_)
  · intro before e after _ _ w r aligned
    refine decAfter ((nests m e w r aligned).mono fun _ v w' r' here => ?_)
    exact Follows.tameLast (change_tame _ _) here fun _ _ => id
  · intro _ _ w₆ r₆ ends
    exact Follows.pure ends

theorem writeNumberPair_aligned (name : String) (elems : List RubyValue) (aligned : Aligned 0 w r) :
    FollowsTag rt opts fuel (writeNumberPair write name elems) w r := by
  refine Follows.take aligned fun w₁ owes => ?_
  refine tagRead 'U' (by decide) fun m _ w₂ r₂ still => ?_
  exact userMarshal_aligned name (owes.quiet still.toQuiet)
    fun w r aligned => writeInlineArray_aligned nests elems aligned

theorem userdef_aligned (name : String) (bytes : List UInt8) (ivars : List Iv)
    (owes : Aligned 1 w r) :
    Agrees fuel
      (writeSymbol name >>= fun _ => writeBytes bytes >>= fun _ => writeIvars write ivars) w
      (readUserdef rt (read rt opts fuel) (!ivars.isEmpty)) r := by
  refine Follows.reserve owes fun index r₁ paid => ?_
  refine Follows.bind ((symbol_follows rt name paid.symbols).mono ?_)
  rintro _ cls w₂ r₂ ⟨-, quiet⟩
  refine Follows.bind ((bytes_follows bytes).mono ?_)
  rintro _ data w₃ r₃ ⟨-, still⟩
  have here := (paid.quiet quiet).quiet still.toQuiet
  have notes : Agrees fuel (writeIvars write ivars) w₃
      (readNotes rt (read rt opts fuel) (!ivars.isEmpty)) r₃ := by
    cases ivars with
    | nil => exact Follows.pure here
    | cons iv ivars =>
      refine Follows.bind ((long_follows _).mono ?_)
      rintro _ _ w₄ r₄ ⟨rfl, -, still⟩
      exact ivars_aligned nests (iv :: ivars) _ (here.quiet still.toQuiet) fun seen name val =>
        noteIvar_tame rt seen name val
  refine decAfter (notes.mono fun _ found w₄ r₄ here => ?_)
  refine tame (loadUserdef_tame rt cls data found) here fun v r₅ here => ?_
  exact tame (replaceObject_tame _ _) here fun _ r₆ ends => Follows.pure ends

/-- User-defined data, with or without an `I` wrapper. -/
theorem wrappedUserdef_aligned (name : String) (bytes : List UInt8) (ivars : List Iv)
    (owes : Aligned 1 w r) :
    FollowsTag rt opts fuel
      (openWrapper ivars >>= fun _ => tag 'u' >>= fun _ => writeSymbol name >>= fun _ =>
        writeBytes bytes >>= fun _ => writeIvars write ivars) w r := by
  cases ivars with
  | nil =>
    change Follows _ (pure () >>= _) _ _ _ _
    rw [pure_bind]
    refine tagRead 'u' (by decide) fun m _ w₁ r₁ still => ?_
    exact userdef_aligned nests name bytes [] (owes.quiet still.toQuiet)
  | cons iv ivars =>
    refine tagRead 'I' (by decide) fun m _ w₁ r₁ first => ?_
    refine .bind ((tag_follows (by decide)).mono ?_)
    rintro _ _ w₂ r₂ ⟨rfl, second⟩
    exact userdef_aligned nests name bytes (iv :: ivars)
      ((owes.quiet first.toQuiet).quiet second.toQuiet)

/-- The classes of objects lead to objects: a class by the name of an object's class is no builtin
kind of value, and its blank instance is an object. -/
structure ObjectsLoad (rt : Runtime im) : Prop where
  /-- The name of an object's class leads to a class of objects. -/
  resolves : ∀ (cls : ObjectClass) name cid, nameable rt cls.val = .ok name →
    rt.classIdByName name = some cid → cid ∉ valueClasses
  allocates : ∀ h cid v h', cid ∉ valueClasses → rt.marshalAllocate h cid = some (v, h') →
    ∃ addr, v = .object addr

/-- The class of this name loads objects, or is one the reader has an arm for. -/
def LoadsObject (rt : Runtime im) (name : String) : Prop :=
  name ≠ "Range" → name ≠ "Set" → ∀ h cid v h', rt.classIdByName name = some cid →
    rt.marshalAllocate h cid = some (v, h') → ∃ addr, v = .object addr

theorem objectBody_aligned (index : Nat) (fields : Fields)
    (objects : LoadsObject rt name) (aligned : Aligned 0 w r) :
    Agrees fuel (writeFields write fields) w
      (readObjectBody rt (read rt opts fuel) index name) r := by
  unfold readObjectBody
  split
  · -- A Range.
    refine Follows.bind ((long_follows _).mono ?_)
    rintro _ _ w₁ r₁ ⟨rfl, -, still⟩
    refine decAfter ((fields_aligned nests fields _ (aligned.quiet still.toQuiet)
      fun _ _ _ => Tame.pure _).mono fun _ parts w₂ r₂ here => ?_)
    refine tame (allocate_tame _) here fun addr r₃ here => ?_
    exact tame (replaceObject_tame _ _) here fun _ r₄ ends => Follows.pure ends
  · split
    · -- A Set.
      refine Follows.bind ((long_follows _).mono ?_)
      rintro _ _ w₁ r₁ ⟨rfl, -, still⟩
      refine decAfter ((fields_aligned nests fields _ (aligned.quiet still.toQuiet)
        noteMembers_tame).mono fun _ members w₂ r₂ here => ?_)
      refine tame (construct_tame _) here fun v r₃ here => ?_
      exact tame (replaceObject_tame _ _) here fun _ r₄ ends => Follows.pure ends
    · refine Follows.decCheck (fun cid found => ?_) (fun e raised => ?_)
      · have named : rt.classIdByName name = some cid := by
          split at found <;> cases found
          assumption
        refine Follows.decSilent (fun obj r₁ made => ?_) (fun e raised => ?_)
        · split at made
          · cases made
            obtain ⟨addr, rfl⟩ := objects ‹_› ‹_› _ _ _ _ named ‹_›
            refine tame (replaceObject_tame _ _) (aligned.reheap w.heap _)
              fun _ r₂ here => ?_
            refine Follows.bind ((long_follows _).mono ?_)
            rintro _ _ w₃ r₃ ⟨rfl, -, still⟩
            refine decAfter ((fields_aligned nests fields () (here.quiet still.toQuiet)
              fun _ name v => assignIvar_tame rt _ name v).mono fun _ _ w₄ r₄ ends => ?_)
            exact Follows.pure ends
          · cases made
        · refine raise_halts ?_
          rintro rfl
          split at raised <;> cases raised
      · refine raise_halts ?_
        rintro rfl
        split at raised <;> cases raised

omit nests in
theorem object_aligned {prepare : W im Fields} (nests : Nests rt opts write)
    (objects : LoadsObject rt name)
    (owes : Aligned 1 w r)
    (prepares : ∀ {fuel : Nat} {w : Writer im} {r : Reader im}
      {k : Fields → W im Unit} {dec : R im RubyValue}, Aligned 0 w r →
      (∀ fields w', Aligned 0 w' r →
        Agrees fuel (k fields) w' dec r) →
      Agrees fuel (prepare >>= k) w dec r) :
    Agrees fuel
      (writeSymbol name >>= fun _ => prepare >>= fun fields => writeFields write fields) w
      (readObject rt (read rt opts fuel)) r := by
  refine Follows.reserve owes fun index r₁ paid => ?_
  refine Follows.bind ((symbol_follows rt name paid.symbols).mono ?_)
  rintro _ _ w₂ r₂ ⟨rfl, quiet⟩
  refine prepares (paid.quiet quiet) fun fields w₃ here => ?_
  exact objectBody_aligned nests index fields objects here

/-- The class and the fixed fields of a Range or a Set, behind its tag. -/
theorem fixedObject_aligned (fields : Fields)
    (objects : LoadsObject rt name) (owes : Aligned 1 w r) :
    Agrees fuel (writeSymbol name >>= fun _ => writeFields write fields) w
      (readObject rt (read rt opts fuel)) r := by
  rw [← pure_bind fields (writeFields write)]
  refine object_aligned nests objects owes fun here after => ?_
  rw [pure_bind]
  exact after fields _ here

end

section

variable (nests : Nests rt opts write) (v : RubyValue)

include nests

theorem writeRange_aligned (addr : Addr) (aligned : Aligned 0 w r) :
    FollowsTag rt opts fuel (writeRange write v addr) w r := by
  refine encGet (orLink_aligned aligned fun w r aligned => ?_)
  refine register aligned fun w₁ owes => ?_
  refine tagRead 'o' (by decide) fun m _ w₂ r₂ still => ?_
  exact fixedObject_aligned nests _ (fun other => absurd rfl other)
    (owes.quiet still.toQuiet)

theorem writeSet_aligned (hash : Addr) (objects : LoadsObject rt name)
    (aligned : Aligned 0 w r) :
    FollowsTag rt opts fuel (writeSet write v hash name) w r := by
  refine orLink_aligned aligned fun w r aligned => ?_
  refine register aligned fun w₁ owes => ?_
  refine tagRead 'o' (by decide) fun m _ w₂ r₂ still => ?_
  exact fixedObject_aligned nests [("@hash", .hash hash)] objects (owes.quiet still.toQuiet)

theorem writeTime_aligned (addr : Addr) (name : String) (aligned : Aligned 0 w r) :
    FollowsTag rt opts fuel (writeTime rt write v addr name) w r := by
  refine orLink_aligned aligned fun w r aligned => ?_
  refine register aligned fun w₁ owes => encGet ?_
  exact wrappedUserdef_aligned nests name _ _ owes

theorem writeMarshalDump_aligned (name : String) (aligned : Aligned 0 w r) :
    FollowsTag rt opts fuel (writeMarshalDump rt write v name) w r := by
  refine orLink_aligned aligned fun w r aligned => ?_
  refine register aligned fun w₁ owes => ?_
  refine tagRead 'U' (by decide) fun m _ w₂ r₂ still => ?_
  refine userMarshal_aligned name (owes.quiet still.toQuiet) fun w r aligned => ?_
  exact Follows.sendFromDump aligned fun dumped w' here => nests m dumped w' r here

theorem writeUserDump_aligned (name : String) (aligned : Aligned 0 w r) :
    FollowsTag rt opts fuel (writeUserDump rt write v name) w r := by
  refine orLink_aligned aligned fun w r aligned => ?_
  refine register aligned fun w₁ owes => ?_
  refine Follows.sendFromDump owes fun result w₂ owes => ?_
  unfold dumpedString
  rw [bind_assoc]
  refine encGet ?_
  split
  · rw [pure_bind]
    exact wrappedUserdef_aligned nests name _ _ owes
  · intro _ _ _ _ run
    cases run

theorem writeStruct_aligned (members : List (Symbol × RubyValue)) (name : String)
    (aligned : Aligned 0 w r) :
    FollowsTag rt opts fuel (writeStruct rt write v members name) w r := by
  refine orLink_aligned aligned fun w r aligned => ?_
  refine register aligned fun w₁ owes => ?_
  refine tagRead 'S' (by decide) fun m _ w₂ r₂ still => ?_
  refine Follows.reserve (owes.quiet still.toQuiet) fun index r₃ paid => ?_
  refine Follows.bind ((symbol_follows rt name paid.symbols).mono ?_)
  rintro _ _ w₄ r₄ ⟨rfl, quiet⟩
  refine tame (classNamed_tame rt _) (paid.quiet quiet) fun cid r₅ here => ?_
  refine tame (membersOf_tame rt cid _) here fun known r₆ here => ?_
  refine Follows.bind ((long_follows _).mono ?_)
  rintro _ _ w₇ r₇ ⟨rfl, fits, still⟩
  rw [asUsize_natCast fits]
  refine decAfter ((fields_aligned nests _ _ (here.quiet still.toQuiet)
    fun _ _ _ => Tame.pure _).mono fun _ values w₈ r₈ here => ?_)
  refine tame (construct_tame _) here fun made r₉ here => ?_
  exact tame (replaceObject_tame _ _) here fun _ _ ends => Follows.pure ends

end

/-- What the reader does with the instance of a builtin's subclass around its payload. -/
theorem payload_aligned {body : W im Unit} (index : Nat) (cid : ClassId) (cls : String)
    {payload : RubyValue} (aligned : Aligned 0 w r)
    (fills : ∀ r, Aligned 0 w r → Agrees fuel body w
      (fillPayload rt (read rt opts fuel) payload) r) :
    Agrees fuel body w
      (allocateSubclass rt cid payload cls >>= fun v => replaceObject index v >>= fun _ =>
        fillPayload rt (read rt opts fuel) payload >>= fun _ => pure v) r := by
  refine tame (allocateSubclass_tame rt cid payload cls) aligned fun v r₁ here => ?_
  refine tame (replaceObject_tame _ _) here fun _ r₂ here => ?_
  exact decAfter ((fills r₂ here).mono fun _ _ _ _ ends => Follows.pure ends)

theorem builtinBody_aligned (nests : Nests rt opts write) (index : Nat) (cid : ClassId)
    (cls : String) (payload : RubyValue) (aligned : Aligned 0 w r) :
    Agrees fuel (writeBuiltinBody rt write payload) w
      (readLetter >>= fun c => readPayload rt c >>= fun payload =>
        allocateSubclass rt cid payload cls >>= fun v => replaceObject index v >>= fun _ =>
          fillPayload rt (read rt opts fuel) payload >>= fun _ => pure v) r := by
  refine encGet ?_
  cases payload with
  | str s =>
    refine Follows.bind ((tag_follows (by decide)).mono ?_)
    rintro _ _ w₁ r₁ ⟨rfl, first⟩
    change Follows _ _ _ ((readBytes >>= fun bytes => stringFromBytes bytes ascii8bit) >>= _) _ _
    rw [bind_assoc]
    refine decAfter ((bytes_follows _).mono ?_)
    rintro _ bytes w₂ r₂ ⟨-, second⟩
    have here := (aligned.quiet first.toQuiet).quiet second.toQuiet
    change Follows _ _ _ ((allocate _ >>= fun addr => pure _) >>= _) _ _
    rw [bind_assoc]
    refine tame (allocate_tame _) here fun addr r₃ here => ?_
    rw [pure_bind]
    exact payload_aligned index cid cls here fun r here => Follows.pure here
  | array addr =>
    refine Follows.bind ((tag_follows (by decide)).mono ?_)
    rintro _ _ w₁ r₁ ⟨rfl, still⟩
    change Follows _ _ _ ((allocate _ >>= fun addr => pure _) >>= _) _ _
    rw [bind_assoc]
    refine tame (allocate_tame _) (aligned.quiet still.toQuiet) fun made r₂ here => ?_
    rw [pure_bind]
    exact payload_aligned index cid cls here fun r here => elems_aligned nests addr made here
  | hash addr =>
    refine Follows.bind ((tag_follows (by decide)).mono ?_)
    rintro _ _ w₁ r₁ ⟨rfl, still⟩
    change Follows _ _ _ ((allocate _ >>= fun addr => pure _) >>= _) _ _
    rw [bind_assoc]
    refine tame (allocate_tame _) (aligned.quiet still.toQuiet) fun made r₂ here => ?_
    rw [pure_bind]
    exact payload_aligned index cid cls here fun r here => pairs_aligned nests _ made here
  | regexp addr =>
    refine Follows.bind ((tag_follows (by decide)).mono ?_)
    rintro _ _ w₁ r₁ ⟨rfl, still⟩
    refine regexpBody_aligned _ (aligned.quiet still.toQuiet) fun made w₂ r₂ here => ?_
    exact payload_aligned index cid cls here fun r here => Follows.pure here
  | _ => exact Follows.encFail

theorem writeSubclass_aligned (nests : Nests rt opts write) (v : RubyValue) (addr : Addr)
    (payload : RubyValue) (name : String) (aligned : Aligned 0 w r) :
    FollowsTag rt opts fuel (writeSubclass rt write v addr payload name) w r := by
  refine orLink_aligned aligned fun w r aligned => encGet ?_
  simp only [← bind_assoc (writeSymbol name)]
  refine wrapped_aligned (registerLink v >>= ·) nests _ 'C' (by decide) (by decide)
    aligned register fun m w r owes => ?_
  refine Follows.reserve owes fun index r₁ paid => ?_
  refine Follows.bind ((symbol_follows rt name paid.symbols).mono ?_)
  rintro _ _ w₂ r₂ ⟨rfl, quiet⟩
  refine tame (classNamed_tame rt _) (paid.quiet quiet) fun cid r₃ here => ?_
  exact builtinBody_aligned nests index cid _ payload here

theorem extended_aligned {rest : W im Unit}
    (inside : ∀ fuel w r, Aligned 0 w r → FollowsTag rt opts fuel rest
      w r) (modules : List ClassId) :
    ∀ fuel w r, Aligned 0 w r →
      FollowsTag rt opts fuel (Enc.each (writeExtended rt) modules >>= fun _ => rest) w r := by
  induction modules with
  | nil =>
    intro fuel w r aligned
    change Follows _ (pure () >>= _) _ _ _ _
    rw [pure_bind]
    exact inside fuel w r aligned
  | cons mid modules ih =>
    intro fuel w r aligned
    change Follows _ ((writeExtended rt mid >>= fun _ => Enc.each _ modules) >>= _) _ _ _ _
    cases named : rt.className mid with
    | none =>
      have nothing : writeExtended rt mid = pure () := by rw [writeExtended, named]
      rw [nothing, pure_bind]
      exact ih fuel w r aligned
    | some name =>
      have record : writeExtended rt mid =
          tag 'e' >>= fun _ => writeSymbol name >>= fun _ => beginValue := by
        rw [writeExtended, named]
      rw [record]
      simp only [bind_assoc]
      refine tagRead 'e' (by decide) fun m _ w₁ r₁ still => ?_
      have here := aligned.quiet still.toQuiet
      refine Follows.bind ((symbol_follows rt name here.symbols).mono ?_)
      rintro _ _ w₂ r₂ ⟨rfl, quiet⟩
      refine decAfter ((value_aligned (here.quiet quiet) (ih m)).mono ?_)
      intro _ inner w₃ r₃ here
      exact tame (extendLoaded_tame rt inner _) here fun _ _ ends => Follows.pure ends

theorem writePlain_aligned (nests : Nests rt opts write) (v : RubyValue) (addr : Addr)
    (cid : ClassId) (objects : LoadsObject rt name) (aligned : Aligned 0 w r) :
    FollowsTag rt opts fuel (writePlain rt write v addr cid name) w r := by
  refine orLink_aligned aligned fun w r aligned => encGet ?_
  refine extended_aligned (fun fuel w₁ r₁ aligned => ?_) _ fuel w r aligned
  refine register aligned fun w₂ owes => ?_
  refine tagRead 'o' (by decide) fun m _ w₃ r₃ still => ?_
  refine object_aligned nests objects (owes.quiet still.toQuiet) fun here after => ?_
  unfold objectFields
  split
  · simp only [bind_assoc]
    refine Follows.sendFromDump here fun mesg w₄ here => ?_
    refine Follows.sendFromDump here fun bt w₅ here => ?_
    rw [pure_bind]
    exact after _ w₅ here
  · rw [pure_bind]
    exact after _ _ here

theorem writeObject_aligned (load : ObjectsLoad rt) (nests : Nests rt opts write) (v : RubyValue)
    (addr : Addr) (aligned : Aligned 0 w r) :
    FollowsTag rt opts fuel (writeObject rt write v addr) w r := by
  refine .encGet (.encCheck fun name named => .encCheck fun _ _ => ?_)
  have objects : LoadsObject rt name := fun _ _ h cid v h' found made =>
    load.allocates h cid v h' (load.resolves _ name cid named found) made
  split
  · exact writeTime_aligned nests v addr name aligned
  · exact writeSet_aligned nests v _ objects aligned
  · split
    · exact writeMarshalDump_aligned nests v name aligned
    · split
      · exact writeUserDump_aligned nests v name aligned
      · split
        · exact writeStruct_aligned nests v _ name aligned
        · exact writeSubclass_aligned nests v addr _ name aligned
        · exact writePlain_aligned nests v addr _ objects aligned

/-- A step of the writer that is `bigint_to_value`. -/
theorem Follows.bigValue {β : Type} {k : RubyValue → W im Unit} {dec : R im β}
    {post : Unit → β → Writer im → Reader im → Prop} (n : Int) (aligned : Aligned 0 w r)
    (after : ∀ v w', Aligned 0 w' r → Follows (wire false fuel) (k v) w' dec r post) :
    Follows (wire false fuel) (bigValue n >>= k) w dec r post := by
  refine .encSilent ?_
  rintro v _ ⟨⟩
  exact after _ _ (aligned.reheap _ r.heap)

theorem writeInner_aligned (load : ObjectsLoad rt) (nests : Nests rt opts write) (v : RubyValue)
    (aligned : Aligned 0 w r) :
    FollowsTag rt opts fuel (writeInner rt write v) w r := by
  cases v with
  | nil =>
    refine tagOnly '0' (by decide) fun m _ w' r' still => ?_
    exact Follows.pure (aligned.quiet still.toQuiet)
  | bool b => exact bool_aligned b aligned
  | int n =>
    change Follows _ (if fitsI32 n.val then _ else _) _ _ _ _
    split
    · refine tagRead 'i' (by decide) fun m _ w₁ r₁ first => ?_
      refine decAfter ((long_follows _).mono ?_)
      rintro _ _ w₂ r₂ ⟨rfl, -, second⟩
      exact Follows.pure ((aligned.quiet first.toQuiet).quiet second.toQuiet)
    · exact writeBignum_aligned n.val aligned
  | bigInt addr => exact encGet (writeBignum_aligned _ aligned)
  | symbol s =>
    refine (symbolValue_follows (rt.symbolName s) aligned.symbols).mono ?_
    rintro _ _ w' r' ⟨-, quiet⟩
    exact aligned.quiet quiet
  | float bits => exact writeFloat_aligned _ aligned
  | str s => exact writeStr_aligned nests _ s aligned
  | regexp addr => exact writeRegexp_aligned nests _ addr aligned
  | array addr => exact writeArray_aligned nests _ addr aligned
  | hash addr => exact writeHash_aligned nests _ addr aligned
  | range addr => exact writeRange_aligned nests _ addr aligned
  | classRef cid => exact writeClass_aligned _ cid aligned
  | rational addr =>
    refine encGet (Follows.bigValue _ aligned fun num w₁ here => ?_)
    refine Follows.bigValue _ here fun den w₂ here => ?_
    exact writeNumberPair_aligned nests "Rational" [num, den] here
  | complex addr => exact encGet (writeNumberPair_aligned nests "Complex" _ aligned)
  | object addr => exact writeObject_aligned load nests _ addr aligned
  | _ => exact encGet Follows.encFail

end Arms

section Dumps

variable {rt : Runtime im} {fuel : Nat} {w : Writer im} {r : Reader im}

theorem write_nests (load : ObjectsLoad rt) (opts : LoadOptions) (depth : Nat) :
    Nests rt opts (write rt depth) := by
  induction depth with
  | zero => exact fun fuel v w r aligned => .encFail
  | succ depth ih =>
    intro fuel v w r aligned
    refine value_aligned aligned fun w₁ r₁ aligned => ?_
    refine .encGet (.encCheck fun _ _ => .encModify ?_)
    refine .encAfter ((writeInner_aligned load ih v ?_).mono fun _ _ w₂ r₂ ends => ?_)
    · exact { aligned with }
    · refine .encModify (.pure ?_)
      exact { ends with }

theorem dump_aligned (load : ObjectsLoad rt) (opts : LoadOptions) (depth : Nat) (v : RubyValue)
    (aligned : Aligned 0 w r) :
    Agrees fuel (dump rt depth v) w (Marshal.load rt opts fuel) r := by
  refine .bind ((byte_follows 4).mono ?_)
  rintro _ _ w₁ r₁ ⟨rfl, first⟩
  refine .bind ((byte_follows 8).mono ?_)
  rintro _ _ w₂ r₂ ⟨rfl, second⟩
  exact write_nests load opts depth fuel v w₂ r₂ ((aligned.quiet first.toQuiet).quiet second.toQuiet)

/-- How a load of a dump ends: with every token read and the tables the writer had, or short of
that with every table it had on the way. -/
def LoadAgrees (w : Writer im) (tokens : List Token) (fuel : Nat) :
    Taken Failure (Reader im) Token UInt8 RubyValue → Prop
  | .done _ r rest log => rest = [] ∧ log = tokens ∧ w.nextLink = r.objects.length ∧
      w.symbols = r.symbols ∧ w.entries.map (·.offset) = r.born ∧
      List.Forall₂ Stamp.Near w.stamps r.stamps
  | .halted e log => log <+: tokens ∧ (e = .fuel → fuel ≤ log.length)

end Dumps

def emptyArrayHeap : Heap plainMap := (Heap.empty.alloc (.array [])).2

theorem smallRuntime_objectsLoad : ObjectsLoad smallRuntime where
  resolves cls name cid _ found := by
    have known : cid ∈ smallNames.map (·.1) := by
      obtain ⟨pair, there, rfl⟩ := Option.map_eq_some_iff.mp found
      exact mem_map_of_mem (mem_of_find?_eq_some there)
    clear found
    revert cid
    decide
  allocates h cid v h' _ made := by
    change (if cid = 200 then _ else none) = _ at made
    split at made
    · cases made
      exact ⟨_, rfl⟩
    · cases made

def emptyArrayTokens : List Token := [.byte 4, .byte 8, .start [] [], .byte 91, .long 0]

/-- An array of a string twice, a symbol twice and an array of `nil`. -/
def sharedHeap : Heap plainMap :=
  let s := Heap.empty.alloc (.str ⟨[0x61], utf8⟩ false)
  let inner := s.2.alloc (.array [.nil])
  (inner.2.alloc (.array [.str (.shared s.1), .str (.shared s.1), .symbol (.text "x"),
    .symbol (.text "x"), .array inner.1])).2

/-- The tokens of `Marshal.dump(["a", "a", :x, :x, [nil]])` with one string in both places. -/
def sharedTokens : List Token := [.byte 4, .byte 8, .start [] [], .byte 91, .long 5,
  .start [2] [], .byte 73, .byte 34, .long 1, .raw [97], .long 1, .byte 58, .long 1, .raw [69],
  .start [2, 4] ["E"], .byte 84, .start [2, 4] ["E"], .byte 64, .long 1,
  .start [2, 4] ["E"], .byte 58, .long 1, .raw [120], .start [2, 4] ["E", "x"], .byte 59, .long 1,
  .start [2, 4] ["E", "x"], .byte 91, .long 1, .start [2, 4, 20] ["E", "x"], .byte 48]

end Zeo.Marshal
