import Mathlib.Data.List.Forall2
import Zeo.Marshal.Reader

/-!
# Writer and reader, token by token

The reader takes every token the writer emits for what it was, provided the packed integers fit.
Between two entries of the tables nothing moves but the position and the symbols, on both sides
alike.
-/

namespace Zeo.Marshal

open Zeo.Enc Zeo.Lib Zeo.Value List

variable {eql : UserEql} {im : ValueMap eql}

/-- What writer and reader agree on. The reader halts with a part of the tokens behind it, for
lack of fuel only when it has taken as many tokens as it had fuel, and in strict terms only for
that reason. -/
def wire (strict : Bool) (fuel : Nat) : Wire Failure Token UInt8 where
  letters := Token.letters
  fits := Token.Fits
  halts items e log :=
    log <+: items ∧ (e = .fuel → fuel ≤ log.length) ∧ (strict = true → e = .fuel)
  append items more e log := by
    rintro ⟨behind, spent, only⟩
    exact ⟨behind.trans (prefix_append items more), spent, only⟩
  prepend before items e log := by
    rintro ⟨behind, spent, only⟩
    refine ⟨(prefix_append_right_inj before).mpr behind, ?_, only⟩
    intro exhausted
    rw [length_append]
    exact le_trans (spent exhausted) (Nat.le_add_left _ _)

/-- At one token the writer is not behind the reader, and ahead of it by one entry at most. -/
structure Stamp.Near (written read : Stamp) : Prop where
  pos : written.pos = read.pos
  links : read.links ≤ written.links
  owes : written.links ≤ read.links + 1
  symbols : read.symbols ≤ written.symbols
  /-- It has entered one more at most. -/
  spells : written.symbols ≤ read.symbols + 1

abbrev Tracked (w : Writer im) (r : Reader im) : Prop := List.Forall₂ Stamp.Near w.stamps r.stamps

/-- Nothing but the position and the symbols moves, and those move alike. -/
structure Quiet (w : Writer im) (r : Reader im) (w' : Writer im) (r' : Reader im) : Prop where
  heap : w'.heap = w.heap
  links : w'.links = w.links
  encLinks : w'.encLinks = w.encLinks
  entries : w'.entries = w.entries
  start : w'.start = w.start
  loaded : r'.heap = r.heap
  objects : r'.objects = r.objects
  parked : r'.parked = r.parked
  begun : r'.start = r.start
  born : r'.born = r.born
  pos : w.pos = r.pos → w'.pos = r'.pos
  symbols : w.symbols = r.symbols → w'.symbols = r'.symbols
  tracked : w.symbols = r.symbols → w.stamp.Near r.stamp → Tracked w r → Tracked w' r'

theorem Quiet.near {w w' : Writer im} {r r' : Reader im} (quiet : Quiet w r w' r')
    (symbols : w.symbols = r.symbols) (near : w.stamp.Near r.stamp) :
    w'.stamp.Near r'.stamp := by
  have links : w'.nextLink = w.nextLink := by rw [← w'.counted, quiet.entries, w.counted]
  have spelled : w'.symbols.length = r'.symbols.length := by rw [quiet.symbols symbols]
  have objects : r'.objects.length = r.objects.length := by rw [quiet.objects]
  refine ⟨quiet.pos near.pos, ?_, ?_, le_of_eq spelled.symm, le_of_eq_of_le spelled (Nat.le_succ _)⟩
  · change r'.objects.length ≤ w'.nextLink
    rw [links, objects]
    exact near.links
  · change w'.nextLink ≤ r'.objects.length + 1
    rw [links, objects]
    exact near.owes

theorem Quiet.refl (w : Writer im) (r : Reader im) : Quiet w r w r :=
  ⟨rfl, rfl, rfl, rfl, rfl, rfl, rfl, rfl, rfl, rfl, id, id, fun _ _ => id⟩

variable {w w' w'' : Writer im} {r r' r'' : Reader im}

theorem Quiet.trans (first : Quiet w r w' r')
    (second : Quiet w' r' w'' r'') : Quiet w r w'' r'' where
  heap := second.heap.trans first.heap
  links := second.links.trans first.links
  encLinks := second.encLinks.trans first.encLinks
  entries := second.entries.trans first.entries
  start := second.start.trans first.start
  loaded := second.loaded.trans first.loaded
  objects := second.objects.trans first.objects
  parked := second.parked.trans first.parked
  begun := second.begun.trans first.begun
  born := second.born.trans first.born
  pos same := second.pos (first.pos same)
  symbols same := second.symbols (first.symbols same)
  tracked same near so :=
    second.tracked (first.symbols same) (first.near same near) (first.tracked same near so)

/-- Nothing but the position moves. -/
structure Still (w : Writer im) (r : Reader im) (w' : Writer im) (r' : Reader im) : Prop
    extends Quiet w r w' r' where
  written : w'.symbols = w.symbols
  read : r'.symbols = r.symbols
  noted : w.stamp.Near r.stamp → Tracked w r → Tracked w' r'

/-- Both move on by the same number of bytes. -/
theorem Still.advance (w : Writer im) (r : Reader im) (count : Nat) :
    Still w r (w.advance count) (r.advance count) :=
  have noted near so :
      Tracked (w.advance count) (r.advance count) :=
    rel_append so (List.Forall₂.cons near List.Forall₂.nil)
  { Quiet.refl w r with
    pos := fun same => congrArg (· + count) same
    symbols := id
    tracked := fun _ => noted
    written := rfl
    read := rfl
    noted := noted }

theorem Still.near {w w' : Writer im} {r r' : Reader im} (still : Still w r w' r')
    (near : w.stamp.Near r.stamp) : w'.stamp.Near r'.stamp := by
  have links : w'.nextLink = w.nextLink := by rw [← w'.counted, still.entries, w.counted]
  have written : w'.stamp = ⟨w'.pos, w.nextLink, w.symbols.length⟩ := by
    rw [← links, ← still.written]
    rfl
  have read : r'.stamp = ⟨r'.pos, r.objects.length, r.symbols.length⟩ := by
    rw [← still.objects, ← still.read]
    rfl
  rw [written, read]
  exact ⟨still.pos near.pos, near.links, near.owes, near.symbols, near.spells⟩

theorem Still.trans (first : Still w r w' r') (second : Still w' r' w'' r'') : Still w r w'' r'' :=
  { first.toQuiet.trans second.toQuiet with
    written := second.written.trans first.written
    read := second.read.trans first.read
    noted := fun near so => second.noted (first.near near) (first.noted near so) }

theorem letter_ascii {c : Char} (small : c.toNat < 256) : letter (ascii c) = c := by
  unfold letter ascii
  rw [UInt8.toNat_ofNat_of_lt' small]
  exact Char.ofNat_toNat c

section Pieces

variable {strict : Bool} {fuel : Nat} {w : Writer im} {r : Reader im}

theorem byte_follows (b : UInt8) : Follows (wire strict fuel) (emit (.byte b)) w byte r
    fun _ b' w' r' => b' = b ∧ Still w r w' r' :=
  .item fun _ _ => ⟨b, r.advance 1, rfl, rfl, Still.advance w r 1⟩

theorem tag_follows {c : Char} (small : c.toNat < 256) :
    Follows (wire strict fuel) (tag c) w readLetter r
      fun _ c' w' r' => c' = c ∧ Still w r w' r' := by
  refine .decAfter ((byte_follows (ascii c)).mono ?_)
  rintro _ _ w' r' ⟨rfl, still⟩
  exact .pure ⟨letter_ascii small, still⟩

theorem long_follows (x : Int) : Follows (wire strict fuel) (writeLong x) w long r
    fun _ y w' r' => y = x ∧ LongFits x ∧ Still w r w' r' := by
  refine .item fun fits rest => ?_
  refine ⟨x, r.advance (marshalLong x).length, ?_, rfl, fits, Still.advance w r _⟩
  change long r (marshalLong x ++ rest) = _
  unfold long
  rw [readLong_marshalLong x fits rest]
  simp only [length_append, Nat.add_sub_cancel]

theorem raw_follows {bytes : List UInt8} {count : Nat} (all : count = bytes.length) :
    Follows (wire strict fuel) (emit (.raw bytes)) w (raw count) r
      fun _ bytes' w' r' => bytes' = bytes ∧ Still w r w' r' := by
  refine .item fun _ rest => ?_
  refine ⟨bytes, r.advance bytes.length, ?_, rfl, Still.advance w r _⟩
  change raw count r (bytes ++ rest) = _
  unfold raw
  rw [if_neg (by rw [length_append]; omega), all, take_left, drop_left]

theorem bytes_follows (bytes : List UInt8) :
    Follows (wire strict fuel) (writeBytes bytes) w readBytes r
      fun _ bytes' w' r' => bytes' = bytes ∧ Still w r w' r' := by
  refine .bind ((long_follows _).mono ?_)
  rintro _ _ w₁ r₁ ⟨rfl, -, first⟩
  refine .decGet ?_
  refine (raw_follows (Int.toNat_natCast _)).mono ?_
  rintro _ _ w₂ r₂ ⟨rfl, second⟩
  exact ⟨rfl, first.trans second⟩

theorem begin_follows (born : w.entries.map (·.offset) = r.born) (symbols : w.symbols = r.symbols) :
    Follows (wire strict fuel) beginValue w beginRead r
      fun _ _ w' r' => w' = { w with start := w.pos } ∧ r' = { r with start := r.pos } := by
  refine .item fun _ rest => ⟨(), { r with start := r.pos }, ?_, rfl, rfl⟩
  change Taken.done () _ rest [Token.start r.born r.symbols] = _
  rw [born, symbols]

theorem lookup_natCast {α : Type} (items : List α) (index : Nat) :
    lookup items (index : Int) = items[index]? := by
  unfold lookup
  rw [if_neg (by omega), Int.toNat_natCast]

theorem symbolLink_follows {name : String} {index : Nat} (there : w.symbols[index]? = some name)
    (symbols : w.symbols = r.symbols) :
    Follows (wire strict fuel) (writeLong index) w linkedSymbol r
      fun _ name' w' r' => name' = name ∧ Quiet w r w' r' := by
  refine .decAfter ((long_follows _).mono ?_)
  rintro _ _ w' r' ⟨rfl, -, still⟩
  refine .decGet ?_
  rw [lookup_natCast, still.read, ← symbols, there]
  exact .pure ⟨rfl, still.toQuiet⟩

theorem symbolText_follows (rt : Runtime im) (name : String) :
    Follows (wire strict fuel) (writeBytes (asBytes name)) w (newSymbol rt) r
      fun _ name' w' r' => name' = name ∧
        ∃ r₁, Still w r w' r₁ ∧ r' = { r₁ with symbols := r₁.symbols ++ [name] } := by
  refine .decAfter ((bytes_follows _).mono ?_)
  rintro _ _ w' r' ⟨rfl, still⟩
  have text := fromUtf8Lossy_asBytes rt.lossy name
  refine .decModify (.pure ⟨text, r', still, ?_⟩)
  rw [text]

/-- A symbol by text or by index, before whatever is done with its name. -/
theorem symbolThen_follows {β : Type} {g : Char → R im β} {k : String → R im β}
    {post : Unit → β → Writer im → Reader im → Prop} (rt : Runtime im) (name : String)
    (symbols : w.symbols = r.symbols) (text : g ':' = newSymbol rt >>= k)
    (link : g ';' = linkedSymbol >>= k)
    (after : ∀ w' r', Quiet w r w' r' →
      Follows (wire strict fuel) (pure () : W im Unit) w' (k name) r' post) :
    Follows (wire strict fuel) (writeSymbol name) w (readLetter >>= g) r post := by
  refine .encGet ?_
  cases findSymbol w name with
  | none =>
    refine .encModify (.bind ((tag_follows (by decide)).mono ?_))
    rintro _ _ w₁ r₁ ⟨rfl, first⟩
    rw [text]
    refine .decAfter ((symbolText_follows rt name).mono ?_)
    rintro _ name' w₂ _ ⟨same, r₂, second, rfl⟩
    rw [same]
    have still := first.trans second
    have tracked (near : w.stamp.Near r.stamp) (so : Tracked w r) : Tracked w₂ r₂ := by
      refine still.noted ⟨near.pos, near.links, near.owes, ?_, ?_⟩ so
      · change r.symbols.length ≤ (w.symbols ++ [name]).length
        rw [symbols, length_append]
        exact Nat.le_add_right _ _
      · change (w.symbols ++ [name]).length ≤ r.symbols.length + 1
        rw [symbols, length_append]
        exact le_rfl
    refine after w₂ _ { still.toQuiet with symbols := fun _ => ?_, tracked := fun _ => tracked }
    rw [still.written, still.read, ← symbols]
    rfl
  | some found =>
    obtain ⟨index, there⟩ := found
    refine .encModify (.bind ((tag_follows (by decide)).mono ?_))
    rintro _ _ w₁ r₁ ⟨rfl, first⟩
    rw [link]
    have same : w₁.symbols = r₁.symbols := first.toQuiet.symbols symbols
    have names : w₁.symbols[index]? = some name := by
      rw [first.written]
      exact there
    refine .decAfter ((symbolLink_follows names same).mono ?_)
    rintro _ _ w₂ r₂ ⟨rfl, second⟩
    exact after w₂ r₂ { first.toQuiet.trans second with }

theorem symbol_follows (rt : Runtime im) (name : String) (symbols : w.symbols = r.symbols) :
    Follows (wire strict fuel) (writeSymbol name) w (readSymbolName rt) r
      fun _ name' w' r' => name' = name ∧ Quiet w r w' r' :=
  symbolThen_follows rt name symbols (bind_pure _).symm (bind_pure _).symm
    fun _ _ quiet => .pure ⟨rfl, quiet⟩

end Pieces

section Tags

variable {strict : Bool} {fuel : Nat} {w : Writer im} {r : Reader im} {α β : Type}

theorem Follows.lessFuel {enc : W im α} {dec : R im β} {less : Nat}
    {post : α → β → Writer im → Reader im → Prop} (fewer : less ≤ fuel)
    (follows : Follows (wire strict fuel) enc w dec r post) :
    Follows (wire strict less) enc w dec r post := by
  refine .rewire (wire strict fuel) rfl rfl ?_ follows
  rintro items e log ⟨behind, spent, only⟩
  exact ⟨behind, fun exhausted => le_trans fewer (spent exhausted), only⟩

variable {opts : LoadOptions} {rt : Runtime im}

/-- A tag and what comes behind it. The reader spends one unit of fuel on the tag. -/
theorem tagged {enc : Unit → W im α}
    {k : Char → R im β} {g : RubyValue → R im β} {post : α → β → Writer im → Reader im → Prop}
    (c : Char) (small : c.toNat < 256) (goes : k c = readTag rt opts fuel c >>= g)
    (after : ∀ m, fuel = m + 1 → ∀ w' r', Still w r w' r' → Follows (wire strict m) (enc ()) w'
        (readTagWith rt (read rt opts m) (readTag rt opts m) c >>= g) r' post) :
    Follows (wire strict fuel) (tag c >>= enc) w (readLetter >>= k) r post := by
  have back : letter (ascii c) = c := letter_ascii small
  refine .itemThen (wire strict (fuel - 1)) (r.advance 1) c rfl rfl ?_
    (fun rest => ?_) ?_
  · rintro items e log ⟨behind, spent, only⟩
    refine ⟨(prefix_append_right_inj [_]).mpr behind, fun exhausted => ?_, only⟩
    have := spent exhausted
    rw [length_cons]
    omega
  · change Taken.done (letter (ascii c)) _ rest _ = _
    rw [back]
    rfl
  · rw [goes]
    cases fuel with
    | zero =>
      intro _ _ items _ _ _
      exact ⟨ nil_prefix, fun _ => Nat.zero_le _, fun _ => rfl⟩
    | succ m => exact after m rfl _ _ (Still.advance w r 1)

theorem tagRead {α : Type} {enc : Unit → W im α}
    {post : α → RubyValue → Writer im → Reader im → Prop} (c : Char) (small : c.toNat < 256)
    (after : ∀ m, fuel = m + 1 → ∀ w' r', Still w r w' r' → Follows (wire strict m) (enc ()) w'
        (readTagWith rt (read rt opts m) (readTag rt opts m) c) r' post) :
    Follows (wire strict fuel) (tag c >>= enc) w (readLetter >>= readTag rt opts fuel) r post := by
  refine tagged c small (bind_pure _).symm fun m enough w' r' still => ?_
  rw [bind_pure]
  exact after m enough w' r' still

theorem symbolValue_follows (name : String) (symbols : w.symbols = r.symbols) :
    Follows (wire strict fuel) (writeSymbol name) w (readLetter >>= readTag rt opts fuel) r
      fun _ v w' r' => v = internSymbol name ∧ Quiet w r w' r' := by
  cases fuel with
  | zero =>
    refine .encGet ?_
    cases findSymbol w name with
    | none => exact .encModify (tagRead ':' (by decide) fun m none => nomatch none)
    | some found => exact .encModify (tagRead ';' (by decide) fun m none => nomatch none)
  | succ m =>
    exact symbolThen_follows rt name symbols rfl rfl fun _ _ quiet => .pure ⟨rfl, quiet⟩

theorem tagOnly
    {post : Unit → RubyValue → Writer im → Reader im → Prop} (c : Char) (small : c.toNat < 256)
    (after : ∀ m, fuel = m + 1 → ∀ w' r', Still w r w' r' →
      Follows (wire strict m) (pure () : W im Unit) w'
        (readTagWith rt (read rt opts m) (readTag rt opts m) c) r' post) :
    Follows (wire strict fuel) (tag c) w (readLetter >>= readTag rt opts fuel) r post := by
  exact tagRead c small after

end Tags

end Zeo.Marshal
