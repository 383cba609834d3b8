import Mathlib.Data.List.Basic

/-!
# Encoders and decoders in lockstep

An encoder passes a state along and emits items; a decoder passes its own state along, consumes
letters and logs the items it takes them for. `Follows` says that a decoder started on the letters
of an encoder's items finishes with the same items behind it, leaving what comes after, or halts in
a way the wire admits. The rules take both programs apart together.
-/

namespace Zeo.Lib

open List

/-- A computation that may stop, passes a state along and emits items. -/
def Enc (ε σ ι α : Type) : Type := σ → Except ε (α × σ × List ι)

namespace Enc

variable {ε σ ι α β : Type}

def bind (x : Enc ε σ ι α) (f : α → Enc ε σ ι β) : Enc ε σ ι β := fun s =>
  match x s with
  | .error e => .error e
  | .ok (a, s', items) =>
    match f a s' with
    | .error e => .error e
    | .ok (b, s'', more) => .ok (b, s'', items ++ more)

instance : Monad (Enc ε σ ι) where
  pure a := fun s => .ok (a, s, [])
  bind := Enc.bind

def silent (f : σ → Except ε (α × σ)) : Enc ε σ ι α := fun s =>
  match f s with
  | .error e => .error e
  | .ok (a, s') => .ok (a, s', [])

def get : Enc ε σ ι σ := silent fun s => .ok (s, s)

def modify (f : σ → σ) : Enc ε σ ι Unit := silent fun s => .ok ((), f s)

def fail (e : ε) : Enc ε σ ι α := silent fun _ => .error e

def check (x : Except ε α) : Enc ε σ ι α := silent fun s => x.map fun a => (a, s)

/-- Emit one item, read off the state, and change the state. -/
def put (item : σ → ι) (f : σ → σ) : Enc ε σ ι Unit := fun s => .ok ((), f s, [item s])

def each (f : α → Enc ε σ ι Unit) : List α → Enc ε σ ι Unit
  | [] => pure ()
  | a :: as => do f a; each f as

theorem bind_eq_ok (x : Enc ε σ ι α) (f : α → Enc ε σ ι β) (s s'' : σ) (b : β) (items : List ι) :
    (x >>= f) s = .ok (b, s'', items) ↔
      ∃ a s' before after, x s = .ok (a, s', before) ∧ f a s' = .ok (b, s'', after) ∧
        items = before ++ after := by
  change Enc.bind x f s = _ ↔ _
  unfold Enc.bind
  cases first : x s with
  | error e => simp
  | ok result =>
    obtain ⟨a, s', before⟩ := result
    cases second : f a s' with
    | error e => simp [second]
    | ok more =>
      obtain ⟨c, t, after⟩ := more
      simp only [second]
      constructor
      · intro same
        cases same
        exact ⟨a, s', before, after, rfl, second, rfl⟩
      · rintro ⟨_, _, _, _, same, run, rfl⟩
        cases same
        rw [second] at run
        cases run
        rfl

theorem silent_eq_ok (f : σ → Except ε (α × σ)) (s s' : σ) (a : α) (items : List ι) :
    (silent f : Enc ε σ ι α) s = .ok (a, s', items) ↔ f s = .ok (a, s') ∧ items = [] := by
  unfold silent
  cases f s with
  | error e => simp
  | ok result =>
    simp only [Except.ok.injEq, Prod.ext_iff]
    tauto

instance : LawfulMonad (Enc ε σ ι) := LawfulMonad.mk' (Enc ε σ ι)
  (fun x => by
    funext s
    change Enc.bind x _ s = x s
    unfold Enc.bind
    cases x s with
    | error e => rfl
    | ok result =>
      change Except.ok (_, _, result.2.2 ++ []) = _
      rw [append_nil]
      rfl)
  (fun a f => by
    funext s
    change (match f a s with
      | .error e => Except.error e
      | .ok (b, s'', more) => .ok (b, s'', [] ++ more)) = f a s
    cases f a s <;> rfl)
  (fun x f g => by
    funext s
    change Enc.bind (Enc.bind x f) g s = Enc.bind x (fun a => Enc.bind (f a) g) s
    unfold Enc.bind
    cases x s with
    | error e => rfl
    | ok result =>
      dsimp only
      cases f result.1 result.2.1 with
      | error e => rfl
      | ok more =>
        dsimp only
        cases g more.1 more.2.1 <;> simp [append_assoc])

end Enc

inductive Taken (δ τ ι κ α : Type) where
  /-- It returns, with the letters it left and the items it took. -/
  | done (a : α) (state : τ) (rest : List κ) (log : List ι)
  | halted (reason : δ) (log : List ι)

/-- The same end, after some items more. -/
def Taken.after {δ τ ι κ α : Type} (before : List ι) : Taken δ τ ι κ α → Taken δ τ ι κ α
  | .done a state rest log => .done a state rest (before ++ log)
  | .halted reason log => .halted reason (before ++ log)

/-- A computation that may halt, passes a state along, consumes letters and logs items. -/
def Dec (δ τ ι κ α : Type) : Type := τ → List κ → Taken δ τ ι κ α

namespace Dec

variable {δ τ ι κ α β : Type}

def bind (x : Dec δ τ ι κ α) (f : α → Dec δ τ ι κ β) : Dec δ τ ι κ β := fun t letters =>
  match x t letters with
  | .halted e log => .halted e log
  | .done a t' rest log => (f a t' rest).after log

instance : Monad (Dec δ τ ι κ) where
  pure a := fun t letters => .done a t letters []
  bind := Dec.bind

def silent (f : τ → Except δ (α × τ)) : Dec δ τ ι κ α := fun t letters =>
  match f t with
  | .error e => .halted e []
  | .ok (a, t') => .done a t' letters []

def get : Dec δ τ ι κ τ := silent fun t => .ok (t, t)

def modify (f : τ → τ) : Dec δ τ ι κ Unit := silent fun t => .ok ((), f t)

def fail (e : δ) : Dec δ τ ι κ α := silent fun _ => .error e

def check (x : Except δ α) : Dec δ τ ι κ α := silent fun t => x.map fun a => (a, t)

/-- Log an item without consuming, and change the state. -/
def note (item : τ → ι) (f : τ → τ) : Dec δ τ ι κ Unit := fun t letters =>
  .done () (f t) letters [item t]

/-- Run a body a number of times, passing a value along. -/
def times (body : α → Dec δ τ ι κ α) : Nat → α → Dec δ τ ι κ α
  | 0, a => pure a
  | n + 1, a => do
    let a ← body a
    times body n a

instance : LawfulMonad (Dec δ τ ι κ) := LawfulMonad.mk' (Dec δ τ ι κ)
  (fun x => by
    funext t letters
    change Dec.bind x _ t letters = x t letters
    unfold Dec.bind
    cases x t letters with
    | halted e log => rfl
    | done a t' rest log =>
      change Taken.done _ _ _ (log ++ []) = _
      rw [append_nil]
      rfl)
  (fun a f => by
    funext t letters
    change (f a t letters).after [] = f a t letters
    cases f a t letters <;> rfl)
  (fun x f g => by
    funext t letters
    change Dec.bind (Dec.bind x f) g t letters = Dec.bind x (fun a => Dec.bind (f a) g) t letters
    unfold Dec.bind
    cases x t letters with
    | halted e log => rfl
    | done a t' rest log =>
      dsimp only
      cases f a t' rest with
      | halted e more => rfl
      | done b t'' rest' more =>
        change (g b t'' rest').after (log ++ more) = ((g b t'' rest').after more).after log
        cases g b t'' rest' <;> simp [Taken.after, append_assoc])

theorem get_bind_apply (g : τ → Dec δ τ ι κ α) (t : τ) (letters : List κ) :
    (get >>= g) t letters = g t t letters := by
  change (g t t letters).after [] = g t t letters
  cases g t t letters <;> rfl

end Dec

/-- What an encoder and a decoder agree on: the letters of an item, the items the decoder can
tell from their letters, and how it may halt on the letters of some items after having logged
others. -/
structure Wire (δ ι κ : Type) where
  letters : ι → List κ
  fits : ι → Prop
  halts : List ι → δ → List ι → Prop
  append : ∀ items more e log, halts items e log → halts (items ++ more) e log
  /-- A halt stays admitted behind what both have done. -/
  prepend : ∀ before items e log, halts items e log → halts (before ++ items) e (before ++ log)

section Following

variable {δ ε σ τ ι κ α α' β β' : Type} {wire : Wire δ ι κ}

/-- The decoder ended on the letters of these items as the wire admits: behind all of them, with
this input left, or halted. -/
def Ends (wire : Wire δ ι κ) (items : List ι) (rest : List κ) (post : β → τ → Prop) :
    Taken δ τ ι κ β → Prop
  | .done b t rest' log => rest' = rest ∧ log = items ∧ post b t
  | .halted e log => wire.halts items e log

variable {rest : List κ} {taken : Taken δ τ ι κ β}

theorem Ends.mono {items : List ι} {post post' : β → τ → Prop}
    (ends : Ends wire items rest post taken)
    (weaker : ∀ b t, post b t → post' b t) : Ends wire items rest post' taken := by
  cases taken with
  | done b t rest' log => exact ⟨ends.1, ends.2.1, weaker b t ends.2.2⟩
  | halted e log => exact ends

variable {post : β → τ → Prop}

theorem Ends.after {items before : List ι} (ends : Ends wire items rest post taken) :
    Ends wire (before ++ items) rest post (taken.after before) := by
  cases taken with
  | done b t rest' log => exact ⟨ends.1, congrArg (before ++ ·) ends.2.1, ends.2.2⟩
  | halted e log => exact wire.prepend before items e log ends

variable {g : β → Dec δ τ ι κ β'} {y : Dec δ τ ι κ β} {t : τ}

theorem Ends.bind {items more : List ι} {post' : β' → τ → Prop} {input : List κ}
    (first : Ends wire items (more.flatMap wire.letters ++ rest) post (y t input))
    (second : ∀ b t', post b t' →
      Ends wire more rest post' (g b t' (more.flatMap wire.letters ++ rest))) :
    Ends wire (items ++ more) rest post' ((y >>= g) t input) := by
  change Ends wire _ rest post' (Dec.bind y g t input)
  unfold Dec.bind
  cases took : y t input with
  | halted e log =>
    rw [took] at first
    exact wire.append items more e log first
  | done b t' rest' log =>
    rw [took] at first
    obtain ⟨rfl, rfl, holds⟩ := first
    exact (second b t' holds).after

/-- Started in these states, the decoder stays with the encoder and both end as `post` says. -/
def Follows (wire : Wire δ ι κ) (enc : Enc ε σ ι α) (s : σ) (dec : Dec δ τ ι κ β) (t : τ)
    (post : α → β → σ → τ → Prop) : Prop :=
  ∀ a s' items rest, enc s = .ok (a, s', items) → (∀ item ∈ items, wire.fits item) →
    Ends wire items rest (fun b t' => post a b s' t') (dec t (items.flatMap wire.letters ++ rest))

namespace Follows

variable {s : σ} {t : τ} {enc : Enc ε σ ι α} {dec : Dec δ τ ι κ β} {g : β → Dec δ τ ι κ β'}

variable {post : α → β → σ → τ → Prop}

theorem pure {a : α} {b : β} (holds : post a b s t) :
    Follows wire (Pure.pure a : Enc ε σ ι α) s (Pure.pure b : Dec δ τ ι κ β) t post := by
  intro a' s' items rest run fits
  cases run
  exact ⟨rfl, rfl, holds⟩

theorem mono {post' : α → β → σ → τ → Prop} (follows : Follows wire enc s dec t post)
    (weaker : ∀ a b s' t', post a b s' t' → post' a b s' t') :
    Follows wire enc s dec t post' := by
  intro a s' items rest run fits
  exact (follows a s' items rest run fits).mono fun b t' => weaker a b s' t'

/-- Sequences follow when the first parts do and the second parts do from wherever the first
ones end. -/
theorem bind {x : Enc ε σ ι α} {f : α → Enc ε σ ι α'} {post : α' → β' → σ → τ → Prop}
    (first : Follows wire x s y t fun a b s' t' => Follows wire (f a) s' (g b) t' post) :
    Follows wire (x >>= f) s (y >>= g) t post := by
  intro c s'' items rest run fits
  obtain ⟨a, s', before, after, ran, goes, rfl⟩ := (Enc.bind_eq_ok x f s s'' c items).mp run
  have start := first a s' before (after.flatMap wire.letters ++ rest) ran
    fun item mem => fits item (mem_append_left _ mem)
  rw [flatMap_append, append_assoc]
  refine start.bind fun b t' follows => ?_
  exact follows c s'' after rest goes fun item mem => fits item (mem_append_right _ mem)

theorem encSilent {f : σ → Except ε (α × σ)} {k : α → Enc ε σ ι α'} {post : α' → β → σ → τ → Prop}
    (after : ∀ a s', f s = .ok (a, s') → Follows wire (k a) s' dec t post) :
    Follows wire (Enc.silent f >>= k) s dec t post := by
  intro c s'' items rest run fits
  obtain ⟨a, s', before, later, ran, goes, rfl⟩ := (Enc.bind_eq_ok _ k s s'' c items).mp run
  obtain ⟨stepped, rfl⟩ := (Enc.silent_eq_ok f s s' a before).mp ran
  exact after a s' stepped c s'' later rest goes fits

/-- A silent step of the decoder; a halt there must be admitted. -/
theorem decSilent {f : τ → Except δ (β × τ)} {k : β → Dec δ τ ι κ β'} {post : α → β' → σ → τ → Prop}
    (after : ∀ b t', f t = .ok (b, t') → Follows wire enc s (k b) t' post)
    (halts : ∀ e, f t = .error e → ∀ items, wire.halts items e []) :
    Follows wire enc s (Dec.silent f >>= k) t post := by
  intro c s' items rest run fits
  change Ends wire items rest _ (Dec.bind (Dec.silent f) k t _)
  unfold Dec.bind Dec.silent
  cases stepped : f t with
  | error e => exact halts e stepped items
  | ok result => exact (after result.1 result.2 stepped c s' items rest run fits).after

theorem encGet {k : σ → Enc ε σ ι α} (after : Follows wire (k s) s dec t post) :
    Follows wire (Enc.get >>= k) s dec t post := by
  apply encSilent
  rintro _ _ ⟨⟩
  exact after

variable {f : σ → σ} {k : Unit → Enc ε σ ι α}

theorem encModify (after : Follows wire (k ()) (f s) dec t post) :
    Follows wire (Enc.modify f >>= k) s dec t post := by
  apply encSilent
  rintro _ _ ⟨⟩
  exact after

theorem encCheck {x : Except ε α'} {k : α' → Enc ε σ ι α}
    (after : ∀ a, x = .ok a → Follows wire (k a) s dec t post) :
    Follows wire (Enc.check x >>= k) s dec t post := by
  apply encSilent
  intro a s' checked
  cases x with
  | error e => cases checked
  | ok b =>
    cases checked
    exact after a rfl

theorem encFail {e : ε} :
    Follows wire (Enc.fail e : Enc ε σ ι α) s dec t post := by
  intro a s' items rest run
  cases run

theorem decGet {k : τ → Dec δ τ ι κ β} (after : Follows wire enc s (k t) t post) :
    Follows wire enc s (Dec.get >>= k) t post := by
  apply decSilent
  · rintro _ _ ⟨⟩
    exact after
  · rintro _ ⟨⟩

theorem decModify {f : τ → τ} {k : Unit → Dec δ τ ι κ β}
    (after : Follows wire enc s (k ()) (f t) post) :
    Follows wire enc s (Dec.modify f >>= k) t post := by
  apply decSilent
  · rintro _ _ ⟨⟩
    exact after
  · rintro _ ⟨⟩

theorem decCheck {x : Except δ β'} {k : β' → Dec δ τ ι κ β}
    (after : ∀ b, x = .ok b → Follows wire enc s (k b) t post)
    (halts : ∀ e, x = .error e → ∀ items, wire.halts items e []) :
    Follows wire enc s (Dec.check x >>= k) t post := by
  cases x with
  | error e =>
    apply decSilent
    · rintro _ _ ⟨⟩
    · rintro _ ⟨⟩
      exact halts e rfl
  | ok value =>
    apply decSilent
    · rintro _ _ ⟨⟩
      exact after value rfl
    · rintro _ ⟨⟩

theorem decFail {e : δ} (halts : ∀ items, wire.halts items e []) :
    Follows wire enc s (Dec.fail e : Dec δ τ ι κ β) t post := by
  intro a s' items rest run fits
  exact halts items

variable {dec : Dec δ τ ι κ β} {enc : Enc ε σ ι α} {s : σ}

/-- The decoder goes on after the encoder has ended. -/
theorem decAfter {post : α → β' → σ → τ → Prop} (first : Follows wire enc s dec t fun a b s' t' =>
      Follows wire (Pure.pure a : Enc ε σ ι α) s' (g b) t' post) :
    Follows wire enc s (dec >>= g) t post := by
  rw [← bind_pure enc]
  exact bind first

theorem encAfter {f : α → Enc ε σ ι α'}
    {post : α' → β → σ → τ → Prop} (first : Follows wire enc s dec t fun a b s' t' =>
      Follows wire (f a) s' (Pure.pure b : Dec δ τ ι κ β) t' post) :
    Follows wire (enc >>= f) s dec t post := by
  rw [← bind_pure dec]
  exact bind first

theorem item {item : σ → ι} {post : Unit → β → σ → τ → Prop}
    (takes : wire.fits (item s) → ∀ rest, ∃ b t',
      dec t (wire.letters (item s) ++ rest) = .done b t' rest [item s] ∧ post () b (f s) t') :
    Follows wire (Enc.put item f : Enc ε σ ι Unit) s dec t post := by
  intro a s' items rest run fits
  cases run
  obtain ⟨b, t', took, holds⟩ := takes (fits (item s) mem_cons_self) rest
  rw [flatMap_singleton, took]
  exact ⟨rfl, rfl, holds⟩

theorem itemThen (wire' : Wire δ ι κ) {item : σ → ι} (t' : τ)
    (b : β) {post : α → β' → σ → τ → Prop} (letters : wire'.letters = wire.letters)
    (fits : wire'.fits = wire.fits)
    (halts : ∀ items e log, wire'.halts items e log → wire.halts (item s :: items) e (item s :: log))
    (takes : ∀ rest, dec t (wire.letters (item s) ++ rest) = .done b t' rest [item s])
    (after : Follows wire' (k ()) (f s) (g b) t' post) :
    Follows wire (Enc.put item f >>= k) s (dec >>= g) t post := by
  intro a s' items rest run fit
  obtain ⟨_, _, _, later, ran, goes, rfl⟩ := (Enc.bind_eq_ok _ k s s' a items).mp run
  cases ran
  have ends := after a s' later rest goes fun item mem => by
    rw [fits]
    exact fit item (mem_append_right _ mem)
  rw [letters] at ends
  change Ends wire _ rest _ (Dec.bind dec g t _)
  rw [flatMap_append, flatMap_singleton, append_assoc]
  unfold Dec.bind
  rw [takes]
  dsimp only
  cases took : g b t' (later.flatMap wire.letters ++ rest) with
  | done c t'' rest' log =>
    rw [took] at ends
    exact ⟨ends.1, congrArg (item s :: ·) ends.2.1, ends.2.2⟩
  | halted e log =>
    rw [took] at ends
    exact halts later e log ends

theorem rewire (wire' : Wire δ ι κ) (letters : wire'.letters = wire.letters)
    (fits : wire'.fits = wire.fits)
    (halts : ∀ items e log, wire'.halts items e log → wire.halts items e log)
    (follows : Follows wire' enc s dec t post) : Follows wire enc s dec t post := by
  intro a s' items rest run fit
  have ends := follows a s' items rest run (by rw [fits]; exact fit)
  rw [letters] at ends
  cases took : dec t (items.flatMap wire.letters ++ rest) with
  | done b t' rest' log =>
    rw [took] at ends
    exact ends
  | halted e log =>
    rw [took] at ends
    exact halts items e log ends

/-- Loops follow when there is an invariant, indexed by the elements done and the value passed
along, that each round keeps. -/
theorem each {f : α → Enc ε σ ι Unit} {body : β → Dec δ τ ι κ β}
    (inv : List α → β → σ → τ → Prop) (all : List α) {count : Nat} (counted : count = all.length)
    (round : ∀ before x after, all = before ++ x :: after → ∀ b s t, inv before b s t →
      Follows wire (f x) s (body b) t fun _ b' s' t' => inv (before ++ [x]) b' s' t') :
    ∀ {b : β} {s : σ} {t : τ}, inv [] b s t →
      Follows wire (Enc.each f all) s (Dec.times body count b) t fun _ => inv all := by
  subst counted
  have loop : ∀ after before, all = before ++ after → ∀ b s t, inv before b s t →
      Follows wire (Enc.each f after) s (Dec.times body after.length b) t fun _ => inv all := by
    intro after
    induction after with
    | nil =>
      intro before split b s t holds
      rw [append_nil] at split
      subst split
      exact .pure holds
    | cons x after ih =>
      intro before split b s t holds
      refine .bind ((round before x after split b s t holds).mono ?_)
      intro _ b' s' t' next
      exact ih (before ++ [x]) (by rw [split, append_assoc]; rfl) b' s' t' next
  intro b s t holds
  exact loop all [] rfl b s t holds

end Follows

end Following

end Zeo.Lib
