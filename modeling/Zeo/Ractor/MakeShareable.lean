import Zeo.Ractor.Shareable

/-!
# Making a value shareable

`Ractor.make_shareable` walks a value and freezes it. It follows what the test follows. A value it
has walked passes the test afterwards, unless the class of an object records no freeze; and a value
that passes is frozen all through, as far as the test follows what it holds.
-/

namespace Zeo.Ractor

open Zeo.Lib Zeo.Value List Heap Walker

variable {eql : UserEql} {im : ValueMap eql}

/-- `set_frozen` of an object. -/
def freezeObject (h : Heap im) (addr : Addr) : Heap im :=
  if (h.object addr).type.freezes then h.setFrozen addr else h

/-- Why a value cannot be made shareable. -/
inductive MakeFail where
  | refused (message : String)
  | fuel
deriving DecidableEq

variable (display : RubyValue → String)

/-- The match of `make_shareable_guarded`, with itself for what a value holds. -/
def makeShareableArm
    (make : RubyValue → List RubyValue × Heap im → Except MakeFail (List RubyValue × Heap im))
    (v : RubyValue) (seen : List RubyValue) (h : Heap im) :
    Except MakeFail (List RubyValue × Heap im) :=
  match v with
  | .range addr => (rangeEnds h addr).foldlM (fun st e => make e st) (seen, h)
  | .str (.shared addr) => .ok (seen, h.setFrozen addr)
  | .array addr =>
    ((h.setFrozen addr).elems addr).foldlM (fun st e => make e st) (seen, h.setFrozen addr)
  | .hash addr =>
    (pairValues (h.setFrozen addr) addr).foldlM (fun st e => make e st) (seen, h.setFrozen addr)
  | .object addr =>
    (ivarValues (freezeObject h addr) addr).foldlM (fun st e => make e st)
      (seen, freezeObject h addr)
  | .reference .proc addr => .ok (seen, h.setFrozen addr)
  | .reference .ractor _ => .ok (seen, h)
  | .reference _ _ => .error (.refused ("can't make shareable object: " ++ display v))
  | .matchData _ => .error (.refused ("can't make shareable object: " ++ display v))
  | _ => .ok (seen, h)

/-- `make_shareable_guarded`, to a bounded depth. -/
def makeShareableGuarded (display : RubyValue → String) :
    Nat → RubyValue → List RubyValue × Heap im → Except MakeFail (List RubyValue × Heap im)
  | 0, _, _ => .error .fuel
  | fuel + 1, v, (seen, h) =>
    match containerIdentity v with
    | some ptr =>
      if seen.contains ptr then .ok (seen, h)
      else makeShareableArm display (makeShareableGuarded display fuel) v (seen ++ [ptr]) h
    | none => makeShareableArm display (makeShareableGuarded display fuel) v seen h

/-- `make_shareable`: the heap it leaves. -/
def makeShareable (h : Heap im) (v : RubyValue) : Except MakeFail (Heap im) := do
  let st ← makeShareableGuarded display h.depth v ([], h)
  pure st.2

/-- Two heaps with the same contents; the frozen flags may differ. -/
structure SameContents (h h' : Heap im) : Prop where
  body : ∀ addr, h'.body addr = h.body addr
  side : ∀ addr, h'.sideIvars addr = h.sideIvars addr
  moved : ∀ addr, h'.moved addr = h.moved addr
  anyMoved : h'.anyMoved = h.anyMoved

namespace SameContents

variable {h h' h'' : Heap im}

theorem refl (h : Heap im) : SameContents h h := ⟨fun _ => rfl, fun _ => rfl, fun _ => rfl, rfl⟩

theorem trans (first : SameContents h h') (second : SameContents h' h'') : SameContents h h'' where
  body addr := (second.body addr).trans (first.body addr)
  side addr := (second.side addr).trans (first.side addr)
  moved addr := (second.moved addr).trans (first.moved addr)
  anyMoved := second.anyMoved.trans first.anyMoved

variable (same : SameContents h h')

include same

theorem object (addr : Addr) : h'.object addr = h.object addr := by
  unfold Heap.object
  rw [same.body addr]

theorem walkedEdges (v : RubyValue) : Ractor.walkedEdges h' v = Ractor.walkedEdges h v :=
  walkedEdges_congr fun addr _ => same.body addr

theorem husk (v : RubyValue) : Ractor.husk h' v = Ractor.husk h v :=
  husk_congr (fun addr _ => same.body addr) (fun addr _ => same.moved addr) same.anyMoved

theorem exempt (v : RubyValue) : Ractor.exempt h' v = Ractor.exempt h v :=
  exempt_congr (fun addr _ => same.body addr) (same.husk v)

theorem tested : Tested h' = Tested h := by
  have edges : testedEdges h' = testedEdges h := by
    funext v
    unfold testedEdges
    rw [same.husk, same.walkedEdges]
  change Relation.ReflTransGen (fun a b => b ∈ testedEdges h' a) = _
  rw [edges]
  rfl

variable {v : RubyValue}

theorem inside (within : Inside h v) : Inside h' v := by
  intro addr target
  obtain ⟨body, there, kind⟩ := within addr target
  exact ⟨body, (same.body addr).trans there, kind⟩

theorem wellFormed (formed : WellFormed h) : WellFormed h' where
  inside addr body there v mem :=
    same.inside (formed.inside addr body ((same.body addr).symm.trans there) v mem)
  side addr v mem := by
    rw [same.side] at mem
    exact same.inside (formed.side addr v mem)
  older addr start finish excl there :=
    formed.older addr start finish excl ((same.body addr).symm.trans there)

end SameContents

theorem setFrozen_same (h : Heap im) (addr : Addr) : SameContents h (h.setFrozen addr) := by
  have cell : ∀ a, (h.setFrozen addr).cell a =
      if a = addr then (h.cell a).map fun cell => { cell with frozen := true } else h.cell a :=
    fun _ => rfl
  refine ⟨fun a => ?_, fun a => ?_, fun a => ?_, rfl⟩
  · unfold body
    rw [cell]
    split
    · cases h.cell a <;> rfl
    · rfl
  · unfold sideIvars
    rw [cell]
    split
    · cases h.cell a <;> rfl
    · rfl
  · unfold moved
    rw [cell]
    split
    · cases h.cell a <;> rfl
    · rfl

theorem freezeObject_same (h : Heap im) (addr : Addr) : SameContents h (freezeObject h addr) := by
  unfold freezeObject
  split
  · exact setFrozen_same h addr
  · exact .refl h

def freezeNode (v : RubyValue) (h : Heap im) : Except MakeFail (Heap im) :=
  match v with
  | .str (.shared addr) => .ok (h.setFrozen addr)
  | .array addr => .ok (h.setFrozen addr)
  | .hash addr => .ok (h.setFrozen addr)
  | .object addr => .ok (freezeObject h addr)
  | .reference .proc addr => .ok (h.setFrozen addr)
  | .reference .ractor _ => .ok h
  | .reference _ _ => .error (.refused ("can't make shareable object: " ++ display v))
  | .matchData _ => .error (.refused ("can't make shareable object: " ++ display v))
  | _ => .ok h

/-- The freezing walk, over the edges there are at its beginning. -/
def makeWalker (h : Heap im) : Walker RubyValue (Heap im) MakeFail where
  guarded v := (containerIdentity v).isSome
  act := freezeNode display
  edges := walkedEdges h
  tired := .fuel

variable {display : RubyValue → String} {h : Heap im} {h' : Heap im}

theorem freezeNode_same (froze : freezeNode display v h = .ok h') : SameContents h h' := by
  unfold freezeNode at froze
  split at froze <;> cases froze
  all_goals first
    | exact .refl h
    | exact setFrozen_same h _
    | exact freezeObject_same h _

variable {start : Heap im}

/-- The match is the action at the node and the loop over its edges. -/
theorem makeShareableArm_eq (same : SameContents start h)
    (make : RubyValue → List RubyValue × Heap im → Except MakeFail (List RubyValue × Heap im))
    (v : RubyValue) (seen : List RubyValue) :
    makeShareableArm display make v seen h = (do
      let h ← freezeNode display v h
      (walkedEdges start v).foldlM (fun st e => make e st) (seen, h)) := by
  cases v with
  | str s => cases s <;> rfl
  | array addr | hash addr =>
    rw [← (same.trans (setFrozen_same h addr)).walkedEdges]
    rfl
  | object addr =>
    rw [← (same.trans (freezeObject_same h addr)).walkedEdges]
    rfl
  | range addr =>
    rw [← same.walkedEdges]
    rfl
  | reference kind addr => cases kind <;> rfl
  | _ => rfl

/-- Two loops agree whose turns agree in every state they go through. -/
theorem foldlM_congr {α β ε : Type} {holds : β → Prop} {f g : α → β → Except ε β}
    (same : ∀ e st, holds st → f e st = g e st)
    (keeps : ∀ e st st', holds st → g e st = .ok st' → holds st') (es : List α) {st : β}
    (here : holds st) : es.foldlM (fun st e => f e st) st = es.foldlM (fun st e => g e st) st := by
  induction es generalizing st with
  | nil => rfl
  | cons e es ih =>
    rw [foldlM_cons, foldlM_cons, same e st here]
    cases ran : g e st with
    | error reason => rfl
    | ok st' => exact ih (keeps e st st' here ran)

theorem makeShareableGuarded_eq (display : RubyValue → String) (fuel : Nat)
    (v : RubyValue) (seen : List RubyValue) (same : SameContents start h) :
    makeShareableGuarded display fuel v (seen, h) =
      (makeWalker display start).walk fuel v (seen, h) := by
  induction fuel generalizing v seen h with
  | zero => rfl
  | succ fuel ih =>
    have arm : ∀ seen, makeShareableArm display (makeShareableGuarded display fuel) v seen h =
        freezeNode display v h >>= fun h => (walkedEdges start v).foldlM
          (fun st e => (makeWalker display start).walk fuel e st) (seen, h) := by
      intro seen
      rw [makeShareableArm_eq same]
      cases froze : freezeNode display v h with
      | error reason => rfl
      | ok h' =>
        have kept : ∀ (e : RubyValue) (st st'),
            SameContents start st.2 → (makeWalker display start).walk fuel e st = .ok st' →
              SameContents start st'.2 := by
          intro e st st' now ran
          exact walk_keeps (fun _ _ _ _ => trivial)
            (fun v s s' _ acted now => now.trans (freezeNode_same acted)) trivial ran now
        exact foldlM_congr (fun e st now => ih e st.1 now) kept _
          (same.trans (freezeNode_same froze))
    unfold makeShareableGuarded walk
    cases identity : containerIdentity v with
    | none =>
      have plain : (makeWalker display start).guarded v = false := by simp [makeWalker, identity]
      have entered : (makeWalker display start).enter v seen = seen := by
        simp [enter, plain]
      rw [plain, entered]
      exact arm seen
    | some ptr =>
      obtain rfl := containerIdentity_eq identity
      have guarded : (makeWalker display start).guarded ptr = true := by
        simp [makeWalker, identity]
      have entered : (makeWalker display start).enter ptr seen = seen ++ [ptr] := by
        simp [enter, guarded]
      rw [guarded, entered]
      dsimp only
      rw [arm]
      rfl

/-- The node is frozen as far as its kind lets itself be frozen. -/
def Settled (h : Heap im) : RubyValue → Prop
  | .str (.shared addr) => (h.cell addr).isSome → h.frozen addr = true
  | .array addr => (h.cell addr).isSome → h.frozen addr = true
  | .hash addr => (h.cell addr).isSome → h.frozen addr = true
  | .object addr => (h.cell addr).isSome → (h.object addr).type.freezes = true →
      h.frozen addr = true
  | .reference .proc addr => (h.cell addr).isSome → h.frozen addr = true
  | .reference .ractor _ => True
  | .reference _ _ => False
  | .matchData _ => False
  | _ => True

theorem setFrozen_isSome (h : Heap im) (addr a : Addr) :
    ((h.setFrozen addr).cell a).isSome = (h.cell a).isSome := by
  change (if a = addr then (h.cell a).map _ else h.cell a).isSome = _
  split
  · rw [Option.isSome_map]
  · rfl

variable {addr : Addr}

theorem setFrozen_frozen (there : (h.cell addr).isSome) :
    (h.setFrozen addr).frozen addr = true := by
  obtain ⟨cell, found⟩ := Option.isSome_iff_exists.mp there
  simp [frozen, setFrozen, update, found]

theorem setFrozen_mono (addr : Addr) {a : Addr} (frozen : h.frozen a = true) :
    (h.setFrozen addr).frozen a = true := by
  unfold Heap.frozen at frozen ⊢
  change ((if a = addr then (h.cell a).map _ else h.cell a).map _).getD false = true
  split
  · cases found : h.cell a with
    | none =>
      rw [found] at frozen
      cases frozen
    | some cell => rfl
  · exact frozen

variable {u : RubyValue}

theorem setFrozen_settled (settled : Settled h u) :
    Settled (h.setFrozen addr) u := by
  have object := (setFrozen_same h addr).object
  cases u with
  | str s =>
    cases s with
    | shared a => exact fun there => setFrozen_mono addr (settled (setFrozen_isSome h addr a ▸ there))
    | frozenCopy a buf => trivial
  | array a | hash a =>
    exact fun there => setFrozen_mono addr (settled (setFrozen_isSome h addr a ▸ there))
  | object a =>
    intro there freezes
    rw [object] at freezes
    exact setFrozen_mono addr (settled (setFrozen_isSome h addr a ▸ there) freezes)
  | reference kind a =>
    cases kind with
    | proc =>
      exact fun there => setFrozen_mono addr (settled (setFrozen_isSome h addr a ▸ there))
    | _ => exact settled
  | _ => exact settled

theorem freezeNode_settles (froze : freezeNode display v h = .ok h') :
    Settled h' v ∧ ∀ u, Settled h u → Settled h' u := by
  have set : ∀ addr, ((h.setFrozen addr).cell addr).isSome →
      (h.setFrozen addr).frozen addr = true :=
    fun addr there => setFrozen_frozen (setFrozen_isSome h addr addr ▸ there)
  cases v with
  | str s =>
    cases s with
    | shared addr =>
      cases froze
      exact ⟨set addr, fun _ => setFrozen_settled⟩
    | frozenCopy addr buf =>
      cases froze
      exact ⟨trivial, fun _ settled => settled⟩
  | array addr | hash addr =>
    cases froze
    exact ⟨set addr, fun _ => setFrozen_settled⟩
  | object addr =>
    cases froze
    unfold freezeObject
    cases freezes : (h.object addr).type.freezes with
    | true => exact ⟨fun there _ => set addr there, fun _ => setFrozen_settled⟩
    | false => exact ⟨fun _ frozen => absurd frozen (by simp [freezes]), fun _ settled => settled⟩
  | reference kind addr =>
    cases kind with
    | proc =>
      cases froze
      exact ⟨set addr, fun _ => setFrozen_settled⟩
    | ractor =>
      cases froze
      exact ⟨trivial, fun _ settled => settled⟩
    | _ => cases froze
  | matchData addr => cases froze
  | _ =>
    cases froze
    exact ⟨trivial, fun _ settled => settled⟩

theorem setFrozen_other (h : Heap im) {addr a : Addr} (other : a ≠ addr) :
    (h.setFrozen addr).frozen a = h.frozen a := by
  unfold frozen
  change ((if a = addr then _ else h.cell a).map _).getD false = _
  rw [if_neg other]

theorem freezeNode_unfrozen {start h' : Heap im}
    (inside : Inside start v) (same : SameContents start h)
    (froze : freezeNode display v h = .ok h') {data : ObjectData}
    (object : start.body addr = some (.object data)) (fixed : data.type.freezes = false) :
    h'.frozen addr = h.frozen addr := by
  have other : ∀ a, targetOf v = some a → (∀ b, v ≠ .object b) → addr ≠ a := by
    rintro a target notObject rfl
    obtain ⟨body, there, kind⟩ := inside addr target
    rw [object] at there
    cases there
    cases v with
    | object b => exact notObject b rfl
    | reference k b => cases k <;> cases kind
    | _ => cases kind
  cases v with
  | str s =>
    cases s with
    | shared a =>
      cases froze
      exact setFrozen_other h (other a rfl (by simp))
    | frozenCopy a buf =>
      cases froze
      rfl
  | array a | hash a =>
    cases froze
    exact setFrozen_other h (other a rfl (by simp))
  | object a =>
    cases froze
    unfold freezeObject
    split
    · rename_i freezes
      by_cases here : addr = a
      · subst here
        have found : h.object addr = data := by
          unfold Heap.object
          rw [same.body, object]
        rw [found, fixed] at freezes
        cases freezes
      · exact setFrozen_other h here
    · rfl
  | reference kind a =>
    cases kind with
    | proc =>
      cases froze
      exact setFrozen_other h (other a rfl (by simp))
    | ractor =>
      cases froze
      rfl
    | _ => cases froze
  | matchData a => cases froze
  | _ =>
    cases froze
    rfl

section Results

variable {display : RubyValue → String} {h h' : Heap im} {v : RubyValue}

/-- The freezing walk keeps to the heap, and guards all but ranges. -/
theorem makeWalker_bounded (formed : WellFormed h) :
    (makeWalker display h).Bounded (Inside h) (containers h) rangeRank h.next where
  closed v _ e edge := walkedEdges_inside formed e edge
  known v inside guarded := by
    obtain ⟨ptr, identity⟩ := Option.isSome_iff_exists.mp guarded
    exact mem_containers identity inside
  rank_le _ inside := rangeRank_le inside
  falls v _ plain e edge := by
    cases v with
    | range addr => exact rangeRank_falls formed edge
    | array addr | hash addr | object addr => cases plain
    | _ => cases edge

theorem makeShareable_ne_fuel (formed : WellFormed h) (inside : Inside h v) :
    makeShareable display h v ≠ .error .fuel := by
  have bounded : (makeWalker display h).Bounded (Inside h) (containers h) rangeRank h.next :=
    makeWalker_bounded formed
  have concludes := walk_concludes bounded h.depth v ([], h) inside
    (need_le_depth (rangeRank_le inside))
  rw [← makeShareableGuarded_eq display h.depth v [] (.refl h)] at concludes
  unfold makeShareable
  cases ran : makeShareableGuarded display h.depth v ([], h) with
  | ok st => exact fun same => by cases same
  | error reason =>
    rw [ran] at concludes
    obtain ⟨u, s, _, refused⟩ := concludes
    intro same
    cases same
    change freezeNode display u s = _ at refused
    unfold freezeNode at refused
    split at refused <;> cases refused

structure Made (h h' : Heap im) (v : RubyValue) : Prop where
  same : SameContents h h'
  settled : ∀ u, Tested h v u → Settled h' u
  fixed : ∀ addr data, h.body addr = some (.object data) → data.type.freezes = false →
    h'.frozen addr = h.frozen addr

theorem makeShareable_made (formed : WellFormed h) (inside : Inside h v)
    (made : makeShareable display h v = .ok h') : Made h h' v := by
  unfold makeShareable at made
  cases ran : makeShareableGuarded display h.depth v ([], h) with
  | error reason =>
    rw [ran] at made
    cases made
  | ok st =>
    rw [ran] at made
    cases made
    rw [makeShareableGuarded_eq display h.depth v [] (.refl h)] at ran
    have closed : ∀ u, Inside h u → ∀ e ∈ walkedEdges h u, Inside h e :=
      fun u _ e edge => walkedEdges_inside formed e edge
    refine ⟨?_, ?_, ?_⟩
    · have keeps : ∀ u s s', Inside h u → freezeNode display u s = .ok s' → SameContents h s →
          SameContents h s' := fun u s s' _ acted now => now.trans (freezeNode_same acted)
      exact walk_keeps closed keeps inside ran (.refl h)
    · intro u reach
      have settles : (makeWalker display h).Settles Settled :=
        ⟨fun u s s' acted => (freezeNode_settles acted).1,
          fun u s s' acted => (freezeNode_settles acted).2⟩
      have walked : (makeWalker display h).Reach v u := by
        induction reach with
        | refl => exact .refl
        | tail _ edge ih =>
          change _ ∈ testedEdges h _ at edge
          unfold testedEdges at edge
          split at edge
          · cases edge
          · exact ih.tail edge
      exact walk_settles settles ran walked
    · intro addr data object fixed
      have keeps : ∀ u s s', Inside h u → freezeNode display u s = .ok s' →
          SameContents h s ∧ s.frozen addr = h.frozen addr →
            SameContents h s' ∧ s'.frozen addr = h.frozen addr :=
        fun u s s' within acted now => ⟨now.1.trans (freezeNode_same acted),
          (freezeNode_unfrozen within now.1 acted object fixed).trans now.2⟩
      have begins : SameContents h h ∧ h.frozen addr = h.frozen addr := ⟨.refl h, rfl⟩
      exact (walk_keeps closed keeps inside ran begins).2

/-- After a walk that freezes, the test answers true unless some object it meets does not let itself
be frozen. -/
theorem makeShareable_shareable (formed : WellFormed h) (inside : Inside h v)
    (made : makeShareable display h v = .ok h') :
    shareable h' v = true ↔ ∀ addr, Tested h v (.object addr) →
      exempt h (.object addr) = true ∨ (h.object addr).type.freezes = true ∨
        h.frozen addr = true := by
  obtain ⟨same, settled, fixed⟩ := makeShareable_made formed inside made
  rw [shareable_iff (same.wellFormed formed) (same.inside inside), same.tested]
  have stays : ∀ u, Tested h v u → Inside h u := by
    intro u reach
    induction reach with
    | refl => exact inside
    | tail _ edge ih => exact (shareWalker_bounded formed).closed _ ih _ edge
  have exists' : ∀ u addr, Inside h u → targetOf u = some addr → (h'.cell addr).isSome := by
    intro u addr within target
    obtain ⟨body, there, _⟩ := within addr target
    rw [← same.body] at there
    obtain ⟨cell, found, _⟩ := Option.map_eq_some_iff.mp there
    exact Option.isSome_iff_exists.mpr ⟨cell, found⟩
  constructor
  · intro all addr reach
    have passed := all _ reach
    by_cases exempted : exempt h (.object addr) = true
    · exact .inl exempted
    · refine .inr ?_
      by_cases freezes : (h.object addr).type.freezes = true
      · exact .inl freezes
      · refine .inr ?_
        obtain ⟨body, there, kind⟩ := stays _ reach addr rfl
        cases body with
        | object data =>
          have found : h.object addr = data := by
            unfold object
            rw [there]
          rw [found] at freezes
          rw [← fixed addr data there (by simpa using freezes)]
          simpa [passes, same.exempt, exempted] using passed
        | _ => cases kind
  · intro all u reach
    have here := settled u reach
    have there := exists' u
    unfold passes
    cases exempted : exempt h u with
    | true => simp [same.exempt, exempted]
    | false =>
      rw [same.exempt, exempted]
      cases u with
      | str s =>
        cases s with
        | shared addr => exact here (there addr (stays _ reach) rfl)
        | frozenCopy addr buf => rfl
      | array addr | hash addr => exact here (there addr (stays _ reach) rfl)
      | object addr =>
        obtain ⟨body, found, kind⟩ := stays _ reach addr rfl
        cases body with
        | object data =>
          have object : h.object addr = data := by
            unfold object
            rw [found]
          rcases all addr reach with exempt' | freezes | frozen
          · rw [exempted] at exempt'
            cases exempt'
          · rw [← same.object] at freezes
            exact here (there addr (stays _ reach) rfl) freezes
          · cases freezes : data.type.freezes with
            | true =>
              rw [← object, ← same.object] at freezes
              exact here (there addr (stays _ reach) rfl) freezes
            | false => exact (fixed addr data found freezes).trans frozen
        | _ => cases kind
      | reference kind addr =>
        cases kind with
        | proc => exact here (there addr (stays _ reach) rfl)
        | ractor => rfl
        | _ => exact absurd here id
      | matchData addr => exact absurd here id
      | _ => rfl

/-- Everything a value leads to. Nothing is read through a husk. -/
def heldEdges (h : Heap im) (v : RubyValue) : List RubyValue :=
  if husk h v then [] else walkedEdges h v ++ hiddenEdges h v

def Held (h : Heap im) : RubyValue → RubyValue → Prop :=
  Relation.ReflTransGen fun a b => b ∈ heldEdges h a

/-- A string, an array, a hash or an object that is not frozen. -/
def changeable (h : Heap im) : RubyValue → Bool
  | .str s => !h.strFrozen s
  | .array addr => !h.frozen addr
  | .hash addr => !h.frozen addr
  | .object addr => !h.frozen addr
  | _ => false

/-- One that needs freezing and is not frozen. -/
def unfrozen (h : Heap im) (v : RubyValue) : Bool := !exempt h v && changeable h v

def DeepFrozen (h : Heap im) (v : RubyValue) : Prop := ∀ u, Held h v u → changeable h u = false

/-- At the nodes the test meets, a port or a husk is frozen, and what the test does not follow is
frozen all through. -/
def Sealed (h : Heap im) (v : RubyValue) : Prop :=
  ∀ u, Tested h v u → (exempt h u = true → changeable h u = false) ∧
    (husk h u = false → ∀ e ∈ hiddenEdges h u, DeepFrozen h e)

/-- The objects the test meets are ports or husks, or let themselves be frozen, or are frozen. -/
def Freezable (h : Heap im) (v : RubyValue) : Prop :=
  ∀ addr, Tested h v (.object addr) →
    exempt h (.object addr) = true ∨ (h.object addr).type.freezes = true ∨ h.frozen addr = true

theorem unfrozen_of_passes (passed : passes h u = true) : unfrozen h u = false := by
  unfold passes at passed
  unfold unfrozen changeable
  cases exempted : exempt h u with
  | true => rfl
  | false =>
    rw [exempted] at passed
    cases u with
    | str s | array addr | hash addr | object addr => simpa using passed
    | _ => rfl

theorem Tested.held (tested : Tested h v u) : Held h v u := by
  induction tested with
  | refl => exact .refl
  | @tail b c _ edge ih =>
    refine ih.tail ?_
    change c ∈ testedEdges h b at edge
    unfold testedEdges at edge
    split at edge
    · cases edge
    · rename_i live
      unfold heldEdges
      rw [if_neg live]
      exact mem_append_left _ edge

/-- A path leaves what the test follows, or does not. -/
theorem held_split (held : Held h v u) :
    Tested h v u ∨
      ∃ w, Tested h v w ∧ husk h w = false ∧ ∃ e ∈ hiddenEdges h w, Held h e u := by
  induction held with
  | refl => exact .inl .refl
  | @tail b c _ edge ih =>
    rcases ih with tested | ⟨w, tested, live, e, hidden, held⟩
    · unfold heldEdges at edge
      split at edge
      · cases edge
      · rename_i live
        rcases mem_append.mp edge with walked | hidden
        · refine .inl (tested.tail ?_)
          change c ∈ testedEdges h b
          unfold testedEdges
          rw [if_neg live]
          exact walked
        · exact .inr ⟨b, tested, by simpa using live, c, hidden, .refl⟩
    · exact .inr ⟨w, tested, live, e, hidden, held.tail edge⟩

/-- A value that passes the test is frozen all through exactly if, where all that the test follows
passes, its ports and husks are frozen and so is what the test does not follow; and a value that has
been made shareable passes the test exactly if its objects let themselves be frozen. -/
theorem shareable_deep_iff (display : RubyValue → String) (h : Heap im) (v : RubyValue)
    (formed : WellFormed h) (inside : Inside h v) :
    ((shareable h v = true → DeepFrozen h v) ↔
        ((∀ u, Tested h v u → passes h u = true) → Sealed h v)) ∧
      makeShareable display h v ≠ .error .fuel ∧
      ∀ h', makeShareable display h v = .ok h' → (shareable h' v = true ↔ Freezable h v) := by
  rw [shareable_iff formed inside]
  refine ⟨⟨fun deep passed u tested => ?_, fun hidden passed => ?_⟩,
    makeShareable_ne_fuel formed inside, fun h' made => makeShareable_shareable formed inside made⟩
  · refine ⟨fun _ => deep passed u tested.held, fun live e edge w held => ?_⟩
    have last : e ∈ heldEdges h u := by
      unfold heldEdges
      rw [if_neg (by simp [live])]
      exact mem_append_right _ edge
    exact deep passed w ((tested.held.tail last).trans held)
  · intro u held
    rcases held_split held with tested | ⟨w, tested, live, e, edge, rest⟩
    · have here := unfrozen_of_passes (passed u tested)
      cases exempted : exempt h u with
      | true => exact (hidden passed u tested).1 exempted
      | false => simpa [unfrozen, exempted] using here
    · exact (hidden passed w tested).2 live e edge u rest

end Results

section Closed

variable {h : Heap im} {u v : RubyValue} {nodes : List RubyValue} (root : v ∈ nodes)

include root

/-- A list of nodes that no followed edge leaves holds all that is met. -/
theorem tested_mem (closed : ∀ n ∈ nodes, ∀ e ∈ testedEdges h n, e ∈ nodes)
    (tested : Tested h v u) : u ∈ nodes := by
  induction tested with
  | refl => exact root
  | tail _ edge ih => exact closed _ ih _ edge

theorem held_mem (closed : ∀ n ∈ nodes, ∀ e ∈ heldEdges h n, e ∈ nodes) (held : Held h v u) :
    u ∈ nodes := by
  induction held with
  | refl => exact root
  | tail _ edge ih => exact closed _ ih _ edge

end Closed

/-- A frozen string, a frozen array of the array itself and the string, a frozen hash with the
string for key and the array for value and default, and an object with the hash in a variable. -/
def sealedHeap : Heap plainMap :=
  let h := (Heap.empty.alloc ⟨.str ⟨[0x61], Enc.utf8⟩, true, false, []⟩).2
  let h := (h.alloc ⟨.array [.array 1, .str (.shared 0)], true, false, []⟩).2
  let data : RHashData plainMap := RHashData.new (.array 1)
  let rows := { data with
    repr := .small [(HashKey.str [0x61] 0, (.str (.shared 0), .array 1))] }
  let h := (h.alloc ⟨.hash rows, true, false, []⟩).2
  (h.alloc ⟨.object ⟨⟨false, true, true⟩, 200, [("x", .hash 2)], by decide, none, [], none⟩,
    false, false, []⟩).2

/-- The hash is shareable and frozen all through, and the object is shareable once it has been made
so. -/
theorem shareable_deep_sealed :
    (shareable sealedHeap (.hash 2) = true ∧ DeepFrozen sealedHeap (.hash 2)) ∧
      ∃ h', makeShareable (fun _ => "") sealedHeap (.object 3) = .ok h' ∧
        shareable h' (.object 3) = true := by
  have formed : WellFormed sealedHeap := wellFormed_of_below (by decide) (by decide) (by decide)
  have shared : shareable sealedHeap (.hash 2) = true := by decide
  have deep := (shareable_deep_iff (fun _ => "") sealedHeap (.hash 2) formed (by decide)).1
  have made := (shareable_deep_iff (fun _ => "") sealedHeap (.object 3) formed (by decide)).2.2
  refine ⟨⟨shared, deep.mpr (fun _ u tested => ?_) shared⟩, _, rfl, (made _ rfl).mpr fun addr met => ?_⟩
  · have nodes : ∀ n ∈ [.hash 2, .str (.shared 0), .array 1],
        (∀ e ∈ testedEdges sealedHeap n, e ∈ [.hash 2, .str (.shared 0), .array 1]) ∧
        (∀ e ∈ heldEdges sealedHeap n, e ∈ [.hash 2, .str (.shared 0), .array 1]) ∧
        changeable sealedHeap n = false ∧ hiddenEdges sealedHeap n ⊆ heldEdges sealedHeap n := by
      decide
    have here := tested_mem (by decide) (fun n mem => (nodes n mem).1) tested
    refine ⟨fun _ => (nodes u here).2.2.1, fun _ e edge w held => (nodes w ?_).2.2.1⟩
    exact held_mem ((nodes u here).2.1 e ((nodes u here).2.2.2 edge)) (fun n mem => (nodes n mem).2.1)
      held
  · have nodes : ∀ n ∈ [.object 3, .hash 2, .str (.shared 0), .array 1],
        (∀ e ∈ testedEdges sealedHeap n,
          e ∈ [.object 3, .hash 2, .str (.shared 0), .array 1]) := by decide
    have here := tested_mem (by decide) nodes met
    obtain rfl : addr = 3 := by simpa using here
    exact .inr (.inl rfl)

/-- A frozen hash whose default is an array, a frozen Struct whose member is that array, a port and
a `Time`; and a regexp with the array in a variable. -/
def leakyHeap : Heap plainMap :=
  let h := (Heap.empty.alloc ⟨.array [], false, false, []⟩).2
  let h := (h.alloc ⟨.hash (RHashData.new (.array 0)), true, false, []⟩).2
  let h := (h.alloc ⟨.object ⟨⟨false, true, true⟩, 200, [], nodup_nil, none, [.array 0], none⟩, true,
    false, []⟩).2
  let h := (h.alloc ⟨.object ⟨⟨true, true, false⟩, 162, [], nodup_nil, none, [], none⟩, false, false,
    []⟩).2
  let h := (h.alloc ⟨.object ⟨⟨false, false, false⟩, 37, [], nodup_nil, none, [], none⟩, false,
    false, []⟩).2
  { h with beside := fun v => if v = .regexp 0 then [.array 0] else [] }

/-- The hash, the Struct and the regexp pass the test and lead to an array that is not frozen, the
port passes and is not frozen, and a `Time` that has been made shareable does not pass. -/
theorem shareable_not_deep : (∀ v ∈ [.hash 1, .object 2, .regexp 0], shareable leakyHeap v = true ∧
      Held leakyHeap v (.array 0)) ∧ leakyHeap.frozen 0 = false ∧
      shareable leakyHeap (.object 3) = true ∧ leakyHeap.frozen 3 = false ∧
      ∃ h', makeShareable (fun _ => "") leakyHeap (.object 4) = .ok h' ∧
        shareable h' (.object 4) = false := by
  have edge : ∀ v ∈ [.hash 1, .object 2, .regexp 0], shareable leakyHeap v = true ∧
      .array 0 ∈ heldEdges leakyHeap v := by decide
  exact ⟨fun v mem => ⟨(edge v mem).1, .single (edge v mem).2⟩, by decide, by decide, by decide, _,
    rfl, by decide⟩

end Zeo.Ractor
