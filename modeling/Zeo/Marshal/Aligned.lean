import Zeo.Marshal.Tokens

/-!
# Link indices agree

At the beginning of every value the writer and the reader stand at the same byte, have entered
the same symbols, and have handed out the same link indices, each to the value that begins at the
same byte. The writer takes an index before the tag of its value and the reader enters the value
behind the tag, so between the two the reader owes one entry.
-/

namespace Zeo.Marshal

open Zeo.Enc Zeo.Lib Zeo.Value List

variable {eql : UserEql} {im : ValueMap eql}

/-- Writer and reader stand at the same place, up to entries the reader owes. -/
structure Aligned (owed : Nat) (w : Writer im) (r : Reader im) : Prop where
  pos : w.pos = r.pos
  start : w.start = r.start
  symbols : w.symbols = r.symbols
  born : w.entries.map (·.offset) = r.born ++ List.replicate owed w.start
  few : owed ≤ 1
  tracked : Tracked w r

namespace Aligned

variable {owed : Nat} {w w' : Writer im} {r r' : Reader im}

/-- The stamps of an aligned pair are at most one entry apart. -/
theorem near (aligned : Aligned owed w r) : w.stamp.Near r.stamp := by
  have links : w.nextLink = r.objects.length + owed := by
    rw [← w.counted, ← r.counted, ← length_map (·.offset), aligned.born]
    simp
  have few := aligned.few
  have symbols : w.symbols.length = r.symbols.length := by rw [aligned.symbols]
  refine ⟨aligned.pos, ?_, ?_, le_of_eq symbols.symm, le_of_eq_of_le symbols (Nat.le_succ _)⟩
  · change r.objects.length ≤ w.nextLink
    omega
  · change w.nextLink ≤ r.objects.length + 1
    omega

/-- Reading what was written keeps the alignment. -/
theorem quiet (aligned : Aligned owed w r) (moved : Quiet w r w' r') : Aligned owed w' r' where
  pos := moved.pos aligned.pos
  start := by rw [moved.start, moved.begun, aligned.start]
  symbols := moved.symbols aligned.symbols
  born := by rw [moved.entries, moved.born, moved.start, aligned.born]
  few := aligned.few
  tracked := moved.tracked aligned.symbols aligned.near aligned.tracked

/-- The writer hands out an index: the reader owes one more entry. -/
theorem owe (aligned : Aligned 0 w r) (owner : Owner) (pos : w'.pos = w.pos)
    (start : w'.start = w.start) (symbols : w'.symbols = w.symbols)
    (entries : w'.entries = w.entries ++ [⟨w.start, owner⟩]) (stamps : w'.stamps = w.stamps) :
    Aligned 1 w' r where
  pos := pos.trans aligned.pos
  start := start.trans aligned.start
  symbols := symbols.trans aligned.symbols
  born := by
    rw [entries, map_append, aligned.born, start, append_assoc]
    rfl
  few := le_rfl
  tracked := by
    change List.Forall₂ _ w'.stamps _
    rw [stamps]
    exact aligned.tracked

/-- A citation is nothing the reader sees. -/
theorem cited (aligned : Aligned owed w r) (c : Citation) (names : c.Names w.entries w.symbols) :
    Aligned owed (w.cite c names) r :=
  ⟨aligned.pos, aligned.start, aligned.symbols, aligned.born, aligned.few, aligned.tracked⟩

/-- A named encoding takes an index. -/
theorem encoding (aligned : Aligned 0 w r) (name : String) :
    Aligned 1 (w.nameEncoding name) r :=
  aligned.owe (.encoding name) rfl rfl rfl rfl rfl

/-- The heaps do not matter. -/
theorem reheap (aligned : Aligned owed w r) (dumped loaded : Heap im) :
    Aligned owed { w with heap := dumped } { r with heap := loaded } :=
  ⟨aligned.pos, aligned.start, aligned.symbols, aligned.born, aligned.few, aligned.tracked⟩

/-- The reader enters what it owes. -/
theorem pay (aligned : Aligned 1 w r) (v : RubyValue) : Aligned 0 w (r.push v) where
  pos := aligned.pos
  start := aligned.start
  symbols := aligned.symbols
  born := by
    change _ = (r.born ++ [r.start]) ++ _
    rw [aligned.born, ← aligned.start, append_assoc]
    rfl
  few := Nat.zero_le 1
  tracked := aligned.tracked

/-- With nothing owed the next index is the same on both sides. -/
theorem nextLink (aligned : Aligned 0 w r) : w.nextLink = r.objects.length := by
  rw [← w.counted, ← r.counted, ← length_map, aligned.born]
  simp

end Aligned

/-- The parts of a reader that the alignment reads are the same. -/
structure Kept (r r' : Reader im) : Prop where
  pos : r'.pos = r.pos
  start : r'.start = r.start
  symbols : r'.symbols = r.symbols
  born : r'.born = r.born
  stamps : r'.stamps = r.stamps

variable {β : Type}

/-- How a step of the reader alone ends: it has read nothing and kept the alignment, or raised. -/
def TameEnd (r : Reader im) (input : List UInt8) :
    Taken Failure (Reader im) Token UInt8 β → Prop
  | .done _ r' rest log => rest = input ∧ log = [] ∧ Kept r r'
  | .halted e log => log = [] ∧ e.isUsual = true

/-- A computation of the reader alone, which reads nothing. -/
def Tame (d : R im β) : Prop := ∀ r input, TameEnd r input (d r input)

namespace Tame

variable {β β' : Type} {d : R im β} {g : β → R im β'}

theorem bind (first : Tame d) (second : ∀ b, Tame (g b)) :
    Tame (d >>= g) := by
  intro r input
  have start := first r input
  change TameEnd r input (Dec.bind d g r input)
  unfold Dec.bind
  cases took : d r input with
  | halted e log =>
    rw [took] at start
    exact start
  | done b r' rest log =>
    rw [took] at start
    obtain ⟨rfl, rfl, kept⟩ := start
    have later := second b r' rest
    change TameEnd r rest ((g b r' rest).after [])
    revert later
    cases g b r' rest with
    | halted e more => exact id
    | done c r'' rest' more =>
      rintro ⟨rfl, rfl, also⟩
      exact ⟨rfl, rfl, also.pos.trans kept.pos, also.start.trans kept.start,
        also.symbols.trans kept.symbols, also.born.trans kept.born,
        also.stamps.trans kept.stamps⟩

def Settled (r : Reader im) : Except Failure (β × Reader im) → Prop
  | .error e => e.isUsual = true
  | .ok (_, r') => Kept r r'

theorem silent {f : Reader im → Except Failure (β × Reader im)} (settled : ∀ r, Settled r (f r)) :
    Tame (Dec.silent f) := by
  intro r input
  have ends := settled r
  unfold Dec.silent
  cases ran : f r with
  | error e =>
    rw [ran] at ends
    exact ⟨rfl, ends⟩
  | ok result =>
    rw [ran] at ends
    exact ⟨rfl, rfl, ends⟩

theorem pure (b : β) :
    Tame (Pure.pure b : R im β) := fun _ _ => ⟨rfl, rfl, ⟨rfl, rfl, rfl, rfl, rfl⟩⟩

theorem get : Tame (Dec.get : R im (Reader im)) :=
  silent fun _ => ⟨rfl, rfl, rfl, rfl, rfl⟩

theorem modify {f : Reader im → Reader im} (keeps : ∀ r, Kept r (f r)) :
    Tame (Dec.modify f : R im Unit) :=
  silent keeps

theorem check {x : Except Failure β} (raises : ∀ e, x = .error e → e.isUsual = true) :
    Tame (Dec.check x : R im β) := by
  cases x with
  | error e => exact silent fun _ => raises e rfl
  | ok b => exact silent fun _ => ⟨rfl, rfl, rfl, rfl, rfl⟩

theorem fail {e : Failure} (raises : e.isUsual = true) : Tame (Dec.fail e : R im β) :=
  fun _ _ => ⟨rfl, raises⟩

end Tame

section TameSteps

variable (rt : Runtime im)

theorem allocate_tame (body : Body im) : Tame (allocate body) :=
  .silent fun _ => ⟨rfl, rfl, rfl, rfl, rfl⟩

theorem change_tame (addr : Addr) (f : Cell im → Cell im) : Tame (change addr f) :=
  .modify fun _ => ⟨rfl, rfl, rfl, rfl, rfl⟩

theorem replaceObject_tame (index : Nat) (v : RubyValue) :
    Tame (replaceObject index v : R im Unit) :=
  .modify fun _ => ⟨rfl, rfl, rfl, rfl, rfl⟩

theorem hashSet_tame (addr : Addr) (key value : RubyValue) : Tame (hashSet rt addr key value) := by
  refine .silent fun r => ?_
  split
  · rfl
  · rfl
  · exact ⟨rfl, rfl, rfl, rfl, rfl⟩

theorem sendIgnored_tame (recv : RubyValue) (method : String) (args : List RubyValue) :
    Tame (sendIgnored rt recv method args) :=
  .modify fun _ => ⟨rfl, rfl, rfl, rfl, rfl⟩

theorem sendFromLoad_tame (recv : RubyValue) (method : String) (args : List RubyValue) :
    Tame (sendFromLoad rt recv method args) := by
  refine .silent fun r => ?_
  split
  · exact ⟨rfl, rfl, rfl, rfl, rfl⟩
  · rfl

theorem construct_tame (make : Heap im → Except String (RubyValue × Heap im)) :
    Tame (construct make) := by
  refine .silent fun r => ?_
  split
  · exact ⟨rfl, rfl, rfl, rfl, rfl⟩
  · rfl

theorem classNamed_tame (name : String) : Tame (classNamed rt name) := by
  refine .check ?_
  split <;> rintro _ ⟨⟩
  rfl

theorem membersOf_tame (cid : ClassId) (name : String) : Tame (membersOf rt cid name) := by
  refine .check ?_
  split <;> rintro _ ⟨⟩
  rfl

theorem allocateInstance_tame (cid : ClassId) (name : String) :
    Tame (allocateInstance rt cid name) := by
  refine .silent fun r => ?_
  split
  · exact ⟨rfl, rfl, rfl, rfl, rfl⟩
  · rfl

theorem allocateSubclass_tame (cid : ClassId) (payload : RubyValue) (name : String) :
    Tame (allocateSubclass rt cid payload name) := by
  refine .silent fun r => ?_
  split
  · exact ⟨rfl, rfl, rfl, rfl, rfl⟩
  · rfl

theorem loadedInteger_tame (n : Int) : Tame (loadedInteger n : R im RubyValue) :=
  .silent fun _ => ⟨rfl, rfl, rfl, rfl, rfl⟩

theorem stringFromBytes_tame (bytes : List UInt8) (enc : EncodingId) :
    Tame (stringFromBytes bytes enc : R im RubyValue) :=
  (allocate_tame _).bind fun _ => .pure _

variable (v : RubyValue)

theorem setStringEncoding_tame (enc : EncodingId) :
    Tame (setStringEncoding v enc : R im Unit) := by
  refine Tame.get.bind fun r => ?_
  split
  · exact change_tame _ _
  · split
    · exact change_tame _ _
    · exact .pure _
  · exact .pure _

theorem ivarSet_tame (name : String) (val : RubyValue) :
    Tame (ivarSet v name val : R im Unit) := by
  unfold ivarSet
  split
  · exact change_tame _ _
  · exact .pure _

theorem assignIvar_tame (name : String) (val : RubyValue) :
    Tame (assignIvar rt v name val) := by
  unfold assignIvar
  split
  · exact .modify fun _ => ⟨rfl, rfl, rfl, rfl, rfl⟩
  · split
    · split
      · exact .pure _
      · exact sendIgnored_tame rt _ _ _
    · exact ivarSet_tame _ _ _

theorem applyIvar_tame (name : String) (val : RubyValue) :
    Tame (applyIvar rt v name val) := by
  refine Tame.get.bind fun r => ?_
  split
  · split
    · exact setStringEncoding_tame _ _
    · exact .pure _
  · exact assignIvar_tame rt v name val

theorem elementAt_tame (addr : Addr) (i : Nat) : Tame (elementAt addr i : R im RubyValue) :=
  Tame.get.bind fun _ => .pure _

theorem toBigint_tame : Tame (toBigint rt v) := by
  refine Tame.get.bind fun r => ?_
  split
  · exact .pure _
  · exact .pure _
  · exact .fail rfl

theorem arrayRead_tame : Tame (arrayRead v : R im Addr) := by
  refine .check ?_
  split <;> rintro _ ⟨⟩
  rfl

theorem rationalNew_tame (num den : Int) :
    Tame (Dec.check (rationalNew num den) : R im (Int × Int)) := by
  refine .check ?_
  unfold rationalNew
  split <;> rintro _ ⟨⟩
  rfl

theorem complexNew_tame (real imag : RubyValue) : Tame (complexNew rt real imag) := by
  refine Tame.get.bind fun r => ?_
  split
  · exact (allocate_tame _).bind fun _ => .pure _
  · exact .fail rfl

theorem noteIvar_tame (seen : EncodingId × Fields) (name : String)
    (val : RubyValue) : Tame (noteIvar rt seen name val) := by
  refine Tame.get.bind fun r => ?_
  split <;> exact .pure _

theorem loadUserdef_tame (cls : String) (bytes : List UInt8)
    (notes : EncodingId × Fields) : Tame (loadUserdef rt cls bytes notes) := by
  unfold loadUserdef
  split
  · exact construct_tame _
  · split
    · refine .check ?_
      split <;> rintro _ ⟨⟩
      rfl
    · exact (stringFromBytes_tame _ _).bind fun _ => (classNamed_tame rt _).bind fun _ =>
        sendFromLoad_tame rt _ _ _

theorem noteMembers_tame (members : List RubyValue) (name : String) (v : RubyValue) :
    Tame (noteMembers members name v : R im (List RubyValue)) := by
  refine Tame.get.bind fun r => ?_
  split <;> exact .pure _

theorem extendLoaded_tame (inner : RubyValue) (name : String) :
    Tame (extendLoaded rt inner name) := by
  unfold extendLoaded
  split
  · exact sendIgnored_tame rt _ _ _
  · exact .pure _

theorem finishValue_tame (opts : LoadOptions) (v : RubyValue) : Tame (finishValue rt opts v) := by
  refine .bind ?_ fun _ => ?_
  · unfold freezeLoaded
    split
    · exact sendIgnored_tame rt _ _ _
    · exact .pure _
  · split
    · exact sendFromLoad_tame rt _ _ _
    · exact .pure _

end TameSteps

abbrev Again (α β : Type) (im : ValueMap eql) :
    α → β → Writer im → Reader im → Prop := fun _ _ => Aligned 0

/-- The reader follows what is written, up to where both stand at the same place again. -/
abbrev Agrees {α β : Type} (fuel : Nat) (enc : W im α) (w : Writer im) (dec : R im β)
    (r : Reader im) : Prop :=
  Follows (wire false fuel) enc w dec r (Again α β im)

section Steps

variable {α β β' : Type} {fuel owed : Nat} {w : Writer im} {r : Reader im}
variable {post : α → β' → Writer im → Reader im → Prop}

theorem raise_halts {e : Failure} (raised : e ≠ .fuel) (items : List Token) :
    (wire false fuel).halts items e [] :=
  ⟨ nil_prefix, fun exhausted => absurd exhausted raised, nofun⟩

variable {enc : W im α}

/-- The reader may do something of its own first. -/
theorem Follows.tame (tame : Tame d) (aligned : Aligned owed w r)
    (after : ∀ b r', Aligned owed w r' → Follows (wire false fuel) enc w (g b) r' post) :
    Follows (wire false fuel) enc w (d >>= g) r post := by
  intro a w' items rest run fits
  have step := tame r (items.flatMap Token.letters ++ rest)
  change Ends _ items rest _ (Dec.bind d g r (items.flatMap Token.letters ++ rest))
  unfold Dec.bind
  revert step
  cases d r (items.flatMap Token.letters ++ rest) with
  | halted e log =>
    rintro ⟨rfl, raised⟩
    exact raise_halts (fun exhausted => by rw [exhausted] at raised; cases raised) items
  | done b r' rest' log =>
    rintro ⟨rfl, rfl, kept⟩
    have moved : Aligned owed w r' := {
      pos := aligned.pos.trans kept.pos.symm
      start := aligned.start.trans kept.start.symm
      symbols := aligned.symbols.trans kept.symbols.symm
      born := by rw [kept.born, aligned.born]
      few := aligned.few
      tracked := by
        change List.Forall₂ _ _ r'.stamps
        rw [kept.stamps]
        exact aligned.tracked }
    exact (after b r' moved a w' items rest run fits).after

theorem Follows.tameLast {post : α → β → Writer im → Reader im → Prop} {a : α}
    (tame : Tame d) (aligned : Aligned owed w r)
    (holds : ∀ b r', Aligned owed w r' → post a b w r') :
    Follows (wire false fuel) (pure a : W im α) w d r post := by
  rw [← bind_pure d]
  exact Follows.tame tame aligned fun b r' moved => Follows.pure (holds b r' moved)

theorem Follows.pay {v : RubyValue} {g : Unit → R im β'} (aligned : Aligned 1 w r)
    (after : ∀ r', Aligned 0 w r' → Follows (wire false fuel) enc w (g ()) r' post) :
    Follows (wire false fuel) enc w (pushObject v >>= g) r post :=
  .decModify (after _ (aligned.pay v))

/-- The reader enters nil for a value it owes. -/
theorem Follows.reserve {g : Nat → R im β'} (aligned : Aligned 1 w r)
    (after : ∀ index r', Aligned 0 w r' → Follows (wire false fuel) enc w (g index) r' post) :
    Follows (wire false fuel) enc w (reserveObject >>= g) r post := by
  refine .decSilent ?_ (by rintro _ ⟨⟩)
  rintro _ _ ⟨⟩
  exact after _ _ (aligned.pay .nil)

variable {dec : R im β'} {k : Unit → W im α}

/-- The writer takes an index. -/
theorem Follows.take (aligned : Aligned 0 w r)
    (after : ∀ w', Aligned 1 w' r → Follows (wire false fuel) (k ()) w' dec r post) :
    Follows (wire false fuel) (takeLink >>= k) w dec r post :=
  .encModify (after _ (aligned.owe .unlinked rfl rfl rfl rfl rfl))

/-- The writer registers a value. -/
theorem Follows.register {v : RubyValue} (aligned : Aligned 0 w r)
    (after : ∀ w', Aligned 1 w' r → Follows (wire false fuel) (k ()) w' dec r post) :
    Follows (wire false fuel) (registerLink v >>= k) w dec r post :=
  .encModify (after _ (aligned.owe (.linked v) rfl rfl rfl rfl rfl))

theorem Follows.sendFromDump {rt : Runtime im} {recv : RubyValue} {method : String}
    {args : List RubyValue} {k : RubyValue → W im α} (aligned : Aligned owed w r)
    (after : ∀ v w', Aligned owed w' r → Follows (wire false fuel) (k v) w' dec r post) :
    Follows (wire false fuel) (sendFromDump rt recv method args >>= k) w dec r post := by
  refine .encSilent ?_
  intro v w' sent
  split at sent
  · cases sent
    exact after v _ (aligned.reheap _ r.heap)
  · cases sent

end Steps

/-- Values written this way are followed by the reader. -/
def Nests (rt : Runtime im) (opts : LoadOptions) (write : RubyValue → W im Unit) : Prop :=
  ∀ fuel v w r, Aligned 0 w r →
    Follows (wire false fuel) (write v) w (read rt opts fuel) r (Again Unit RubyValue im)

section Parts

variable {rt : Runtime im} {opts : LoadOptions} {fuel owed : Nat} {w : Writer im} {r : Reader im}

/-- The reader of a tag follows what is written. -/
abbrev FollowsTag (rt : Runtime im) (opts : LoadOptions) (fuel : Nat) (enc : W im Unit)
    (w : Writer im) (r : Reader im) : Prop :=
  Follows (wire false fuel) enc w (readLetter >>= readTag rt opts fuel) r (Again Unit RubyValue im)

open Follows

/-- `read` around the reader of a tag. -/
theorem value_aligned {body : W im Unit} (aligned : Aligned 0 w r)
    (inside : ∀ w r, Aligned 0 w r → FollowsTag rt opts fuel body w r) :
    Agrees fuel (beginValue >>= fun _ => body) w (read rt opts fuel) r := by
  have born : w.entries.map (·.offset) = r.born := by simpa using aligned.born
  refine Follows.bind ((begin_follows born aligned.symbols).mono ?_)
  rintro _ _ _ _ ⟨rfl, rfl⟩
  have begun : Aligned 0 { w with start := w.pos } { r with start := r.pos } :=
    ⟨aligned.pos, aligned.pos, aligned.symbols, by simpa using born, aligned.few, aligned.tracked⟩
  rw [← bind_assoc]
  refine decAfter ((inside _ _ begun).mono ?_)
  intro _ v w' r' ends
  exact tameLast (finishValue_tame rt opts v) ends fun _ _ => id

/-- A link is read back. -/
theorem link_aligned (index : Nat) (aligned : Aligned 0 w r) :
    Agrees fuel (writeLong index) w readLink r := by
  refine .decAfter ((long_follows _).mono ?_)
  rintro _ _ w' r' ⟨rfl, -, still⟩
  refine .decGet ?_
  split
  · exact .pure (aligned.quiet still.toQuiet)
  · exact .decFail (raise_halts (by rintro ⟨⟩))

theorem string_aligned (bytes : List UInt8) (aligned : Aligned 1 w r) :
    Agrees fuel (writeBytes bytes) w (readString ascii8bit) r := by
  refine Follows.decAfter ((bytes_follows bytes).mono ?_)
  rintro _ _ w' r' ⟨rfl, still⟩
  refine Follows.tame (stringFromBytes_tame _ _) (aligned.quiet still.toQuiet) fun v r₁ moved => ?_
  exact Follows.pay moved fun r₂ paid => Follows.pure paid

theorem bool_aligned (b : Bool) (aligned : Aligned 0 w r) :
    FollowsTag rt opts fuel (tag (if b then 'T' else 'F')) w r := by
  cases b with
  | true =>
    refine tagOnly 'T' (by decide) fun m _ w' r' still => ?_
    exact .pure (aligned.quiet still.toQuiet)
  | false =>
    refine tagOnly 'F' (by decide) fun m _ w' r' still => ?_
    exact .pure (aligned.quiet still.toQuiet)

theorem encodingName_aligned (name : String) (aligned : Aligned 0 w r) :
    FollowsTag rt opts fuel (writeEncodingName name) w r := by
  refine .encGet ?_
  split
  · refine .encModify (tagRead '@' (by decide) fun m _ w' r' still => ?_)
    exact link_aligned _ ((aligned.cited _ _).quiet still.toQuiet)
  · refine .encModify (tagRead '\"' (by decide) fun m _ w' r' still => ?_)
    exact string_aligned _ ((aligned.encoding name).quiet still.toQuiet)

theorem field_aligned {value : W im Unit} {body : String → RubyValue → R im β}
    (name : String) (aligned : Aligned 0 w r) (follows : ∀ w r, Aligned 0 w r →
      Agrees fuel value w (read rt opts fuel) r) (tame : ∀ name v, Tame (body name v)) :
    Agrees fuel (writeSymbol name >>= fun _ => value) w
      (readSymbolName rt >>= fun name => read rt opts fuel >>= fun v => body name v) r := by
  refine Follows.bind ((symbol_follows rt name aligned.symbols).mono ?_)
  rintro _ _ w₁ r₁ ⟨rfl, quiet⟩
  refine decAfter ((follows w₁ r₁ (aligned.quiet quiet)).mono ?_)
  intro _ v w₂ r₂ ends
  exact tameLast (tame _ v) ends fun _ _ => id

variable {write : RubyValue → W im Unit}

section

variable (nests : Nests rt opts write)

include nests

variable {body : β → String → RubyValue → R im β}

/-- Fields are read back one by one. -/
theorem fields_aligned (fields : Fields) (a : β) (aligned : Aligned 0 w r)
    (tame : ∀ a name v, Tame (body a name v)) :
    Agrees fuel
      (Enc.each (fun field => do writeSymbol field.1; write field.2) fields) w
      (readFields rt (read rt opts fuel) body fields.length a) r := by
  refine .each (fun _ _ => Aligned 0) fields rfl ?_ aligned
  intro before field after _ b w r aligned
  exact field_aligned field.1 aligned (nests fuel field.2) (tame b)

theorem ivar_aligned {body : String → RubyValue → R im β} (iv : Iv)
    (aligned : Aligned 0 w r) (tame : ∀ name v, Tame (body name v)) :
    Agrees fuel (writeIvar write iv) w
      (readSymbolName rt >>= fun name => read rt opts fuel >>= fun v => body name v) r := by
  cases iv with
  | encBool b =>
    exact field_aligned "E" aligned
      (fun _ _ here => value_aligned here fun _ _ => bool_aligned b) tame
  | encName name =>
    exact field_aligned "encoding" aligned
      (fun _ _ here => value_aligned here fun _ _ => encodingName_aligned name) tame
  | named name v => exact field_aligned name aligned (nests fuel v) tame

theorem ivars_aligned (ivars : List Iv) (a : β)
    (aligned : Aligned 0 w r) (tame : ∀ a name v, Tame (body a name v)) :
    Agrees fuel (Enc.each (writeIvar write) ivars) w
      (readFields rt (read rt opts fuel) body ivars.length a) r := by
  refine .each (fun _ _ => Aligned 0) ivars rfl ?_ aligned
  intro before iv after _ b w r aligned
  exact ivar_aligned nests iv aligned (tame b)

/-- Elements are read back one by one. -/
theorem elems_aligned (addr addr' : Addr) (aligned : Aligned 0 w r) :
    Agrees fuel (writeElems write addr) w (readElems (read rt opts fuel) addr') r := by
  refine Follows.encGet (Follows.bind ((long_follows _).mono ?_))
  rintro _ _ w₁ r₁ ⟨rfl, -, still⟩
  refine Follows.each (fun _ _ => Aligned 0) _ (by simp) ?_ (aligned.quiet still.toQuiet)
  intro before i after _ _ w r aligned
  refine Follows.encGet ?_
  refine Follows.decAfter ((nests fuel _ w r aligned).mono ?_)
  intro _ v w' r' ends
  exact Follows.tameLast (change_tame _ _) ends fun _ _ => id

end

/-- Pairs are read back one by one. -/
theorem pairs_aligned (nests : Nests rt opts write) (pairs : Pairs)
    (addr : Addr) (aligned : Aligned 0 w r) :
    Agrees fuel (writePairs write pairs) w (readPairs rt (read rt opts fuel) addr) r := by
  refine Follows.bind ((long_follows _).mono ?_)
  rintro _ _ w₁ r₁ ⟨rfl, -, still⟩
  refine each (fun _ _ => Aligned 0) _ (by simp) ?_ (aligned.quiet still.toQuiet)
  intro before pair after _ _ w r aligned
  refine bind ((nests fuel _ w r aligned).mono ?_)
  intro _ k w₂ r₂ keyed
  refine decAfter ((nests fuel _ w₂ r₂ keyed).mono ?_)
  intro _ v w₃ r₃ ends
  exact tameLast (hashSet_tame rt _ _ _) ends fun _ _ => id

end Parts

section Arms

variable {rt : Runtime im} {opts : LoadOptions} {fuel owed : Nat} {w : Writer im} {r : Reader im}
variable {write : RubyValue → W im Unit}

/-- A value met before is written as a link. -/
theorem orLink_aligned {v : RubyValue} {body : W im Unit} (aligned : Aligned 0 w r)
    (inside : ∀ w r, Aligned 0 w r → FollowsTag rt opts fuel body w r) :
    FollowsTag rt opts fuel (orLink v body) w r := by
  refine .encGet ?_
  split
  · refine .encModify (tagRead '@' (by decide) fun m _ w' r' still => ?_)
    exact link_aligned _ ((aligned.cited _ _).quiet still.toQuiet)
  · exact inside w r aligned

/-- A tag, its value behind which the reader owes an entry, and what comes after it. -/
theorem core_aligned {inner rest : W im Unit} {k : Char → R im RubyValue}
    {g : RubyValue → R im RubyValue} {c : Char} (small : c.toNat < 256)
    (goes : k c = readTag rt opts fuel c >>= g) (aligned : Aligned 1 w r)
    (inside : ∀ m w r, Aligned 1 w r → Agrees m inner w
      (readTagWith rt (read rt opts m) (readTag rt opts m) c) r)
    (after : ∀ v w r, Aligned 0 w r →
      Agrees fuel rest w (g v) r) :
    Agrees fuel (tag c >>= fun _ => inner >>= fun _ => rest) w (readLetter >>= k) r := by
  refine tagged c small goes fun m enough w' r' still => ?_
  refine Follows.bind ((inside m w' r' (aligned.quiet still.toQuiet)).mono ?_)
  intro _ v w'' r'' ends
  exact Follows.lessFuel (by omega) (after v w'' r'' ends)

theorem applyIvars_aligned (nests : Nests rt opts write) (iv : Iv) (ivars : List Iv) (v : RubyValue)
    (aligned : Aligned 0 w r) :
    Agrees fuel (writeIvars write (iv :: ivars)) w
      (applyIvars rt (read rt opts fuel) v >>= fun _ => pure v) r := by
  refine .decAfter ?_
  refine .bind ((long_follows _).mono ?_)
  rintro _ _ w₁ r₁ ⟨rfl, -, still⟩
  refine (ivars_aligned nests (iv :: ivars) () (aligned.quiet still.toQuiet)
    fun _ name val => applyIvar_tame rt v name val).mono ?_
  intro _ _ w₂ r₂ ends
  exact .pure ends

/-- A value with or without an `I` wrapper. What `pre` does between the tags leaves the reader one
entry to pay. -/
theorem wrapped_aligned {inner : W im Unit} (pre : (Unit → W im Unit) → W im Unit)
    (nests : Nests rt opts write) (ivars : List Iv)
    (c : Char) (small : c.toNat < 256) (other : c ≠ 'u') (aligned : Aligned owed w r)
    (prepares : ∀ {fuel : Nat} {w : Writer im} {r : Reader im} {k : Unit → W im Unit}
      {dec : R im RubyValue}, Aligned owed w r →
      (∀ w', Aligned 1 w' r → Agrees fuel (k ()) w' dec r) →
      Agrees fuel (pre k) w dec r)
    (inside : ∀ m w r, Aligned 1 w r → Agrees m inner w
      (readTagWith rt (read rt opts m) (readTag rt opts m) c) r) :
    FollowsTag rt opts fuel
      (openWrapper ivars >>= fun _ => pre fun _ => tag c >>= fun _ => inner >>= fun _ =>
        writeIvars write ivars) w r := by
  cases ivars with
  | nil =>
    change Follows _ (pure () >>= _) _ _ _ _
    rw [pure_bind]
    refine prepares aligned fun w' owes => ?_
    exact core_aligned small (bind_pure _).symm owes inside fun v w r ends => Follows.pure ends
  | cons iv ivars =>
    refine tagRead 'I' (by decide) fun m _ w₁ r₁ still => ?_
    refine prepares (aligned.quiet still.toQuiet) fun w₂ owes => ?_
    exact core_aligned small (if_neg other) owes inside
      fun v w r ends => applyIvars_aligned nests iv ivars v ends

theorem writeStr_aligned (nests : Nests rt opts write) (v : RubyValue) (s : RStr)
    (aligned : Aligned 0 w r) :
    FollowsTag rt opts fuel (writeStr write v s) w r := by
  refine orLink_aligned aligned fun w r aligned => Follows.encGet ?_
  exact wrapped_aligned (registerLink v >>= ·) nests _ '\"' (by decide) (by decide) aligned
    Follows.register
    fun m w r owes => string_aligned _ owes

theorem regexpBody_aligned {g : RubyValue → R im β} (data : RegexpData) (aligned : Aligned owed w r)
    (after : ∀ addr w r, Aligned owed w r →
      Agrees fuel (pure () : W im Unit) w (g (.regexp addr)) r) :
    Agrees fuel (writeRegexpBody data) w (readRegexpBody rt >>= g) r := by
  unfold readRegexpBody
  simp only [bind_assoc, pure_bind]
  refine Follows.bind ((bytes_follows _).mono ?_)
  rintro _ _ w₁ r₁ ⟨rfl, first⟩
  refine Follows.decAfter ((byte_follows _).mono ?_)
  rintro _ _ w₂ r₂ ⟨rfl, second⟩
  have here := (aligned.quiet first.toQuiet).quiet second.toQuiet
  refine Follows.tame (Tame.check ?_) here fun _ r₃ checked => ?_
  · split <;> rintro _ ⟨⟩
    rfl
  · exact Follows.tame (allocate_tame _) checked fun addr r₄ ends => after addr w₂ r₄ ends

section

variable (nests : Nests rt opts write)

include nests

theorem writeRegexp_aligned (v : RubyValue) (addr : Addr) (aligned : Aligned 0 w r) :
    FollowsTag rt opts fuel (writeRegexp write v addr) w r := by
  refine orLink_aligned aligned fun w r aligned => Follows.encGet ?_
  refine wrapped_aligned (registerLink v >>= ·) nests _ '/' (by decide) (by decide)
    aligned Follows.register fun m w r owes => ?_
  refine Follows.reserve owes fun index r₁ paid => ?_
  refine regexpBody_aligned _ paid fun addr w₂ r₂ ends => ?_
  exact Follows.tame (replaceObject_tame _ _) ends fun _ r₃ done => Follows.pure done

theorem writeArray_aligned (v : RubyValue) (addr : Addr) (aligned : Aligned 0 w r) :
    FollowsTag rt opts fuel (writeArray write v addr) w r := by
  refine orLink_aligned aligned fun w r aligned => Follows.encGet ?_
  refine wrapped_aligned (registerLink v >>= ·) nests _ '[' (by decide) (by decide)
    aligned Follows.register fun m w r owes => ?_
  refine Follows.tame (allocate_tame _) owes fun addr' r₁ still => ?_
  refine Follows.pay still fun r₂ paid => ?_
  refine Follows.decAfter ((elems_aligned nests addr addr' paid).mono ?_)
  intro _ _ w₃ r₃ ends
  exact Follows.pure ends

theorem hashBody_aligned (pairs : Pairs) {default : RubyValue}
    {defaulted : Bool} (tells : defaulted = true ↔ default ≠ .nil) (owes : Aligned 1 w r) :
    Agrees fuel (writePairs write pairs >>= fun _ => writeDefault write default) w
      (readHash rt (read rt opts fuel) defaulted) r := by
  refine Follows.tame (allocate_tame _) owes fun addr r₁ still => ?_
  refine Follows.pay still fun r₂ paid => ?_
  refine Follows.bind ((pairs_aligned nests pairs addr paid).mono ?_)
  intro _ _ w₃ r₃ here
  refine Follows.decAfter ?_
  cases defaulted with
  | false =>
    have bare : default = .nil := by
      by_contra some_
      exact absurd (tells.mpr some_) (by decide)
    rw [writeDefault, if_pos bare]
    exact Follows.pure (Follows.pure here)
  | true =>
    rw [writeDefault, if_neg (tells.mp rfl)]
    refine Follows.decAfter ((nests fuel default w₃ r₃ here).mono ?_)
    intro _ v w₄ r₄ ends
    exact Follows.tameLast (change_tame _ _) ends fun _ _ done => Follows.pure done

theorem writeHash_aligned (v : RubyValue) (addr : Addr) (aligned : Aligned 0 w r) :
    FollowsTag rt opts fuel (writeHash write v addr) w r := by
  refine orLink_aligned aligned fun w r aligned => ?_
  refine Follows.register aligned fun w₁ owes => Follows.encGet ?_
  refine Follows.encCheck fun _ _ => ?_
  simp only [← bind_assoc (writePairs write _)]
  by_cases bare : (w₁.heap.table addr).default = .nil
  · rw [if_pos bare]
    exact wrapped_aligned (fun k => k ()) nests _ '{' (by decide) (by decide) owes
      (fun here after => after _ here)
      fun m w r owes => hashBody_aligned nests _ (by simp [bare]) owes
  · rw [if_neg bare]
    exact wrapped_aligned (fun k => k ()) nests _ '}' (by decide) (by decide) owes
      (fun here after => after _ here)
      fun m w r owes => hashBody_aligned nests _ (by simp [bare]) owes

end

end Arms

end Zeo.Marshal
