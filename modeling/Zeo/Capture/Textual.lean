import Zeo.Capture.Walk

/-!
# The textual rule for block variables

Ruby decides for each block: a name in it is the scope's when the scope assigned the name before the
block's body. The analysis decides once for each name, from the latest construct that touches it and
the earliest assignment on record. The rule is met exactly when no assignment of a local stands
between two blocks that name it and the positions on record show on which side of it they are.
-/

namespace Zeo.Capture

open List Captures

variable (caps : Captures)

@[simp]
theorem recordAll_nil : caps.recordAll [] = caps := rfl

/-- An escaping construct names a local. -/
def Event.registers (name : String) : Event → Bool
  | .touch n _ => decide (n = name)
  | .mention n => decide (n = name)
  | _ => false

/-- A nested construct names a local in a plain form. -/
def Event.nests (name : String) : Event → Bool
  | .touch n ctx => decide (n = name) && ctx.nested
  | _ => false

/-- Where the constructs start that name a local in a plain form. -/
def touchStarts (name : String) (events : List Event) : List Pos :=
  events.filterMap fun e => match e with
    | .touch n ctx => if n = name then some ctx.start else none
    | _ => none

/-- Where a local is assigned outside the constructs, as far as a position is known. -/
def assignStarts (name : String) (events : List Event) : List Pos :=
  events.filterMap fun e => match e with
    | .assign n p => if n = name then some p else none
    | _ => none

/-- `laterTouch` over the starts on record. -/
def latest (old : Option Pos) (starts : List Pos) : Option Pos :=
  starts.foldl (fun old p => some (laterTouch old p)) old

/-- `earlierAssign` over the starts on record. -/
def earliest (old : Option Pos) (starts : List Pos) : Option Pos :=
  starts.foldl (fun old p => some (earlierAssign old p)) old

/-- The positions of the file that comes last, behind the last one of another file. -/
def lastRun : List Pos → List Pos
  | [] => []
  | p :: ps => if ∀ q ∈ ps, q.file = p.file then p :: ps else lastRun ps

/-- The positions of the file that comes first. -/
def inFirstFile : List Pos → List Pos
  | [] => []
  | p :: ps => (p :: ps).filter fun q => decide (q.file = p.file)

theorem lastRun_skip {p q : Pos} {ps : List Pos} (other : ¬ ∀ x ∈ ps, x.file = p.file) :
    lastRun (p :: q :: ps) = lastRun (q :: ps) := by
  have mixed : ¬ ∀ x ∈ q :: ps, x.file = p.file :=
    fun all => other fun x mem => all x (mem_cons_of_mem q mem)
  rw [lastRun, if_neg mixed]

/-- Of two positions in one file the later is kept. -/
theorem laterTouch_same {e p : Pos} (same : p.file = e.file) :
    (laterTouch (some e) p = e ∨ laterTouch (some e) p = p) ∧
      (laterTouch (some e) p).file = e.file ∧ e.start ≤ (laterTouch (some e) p).start ∧
        p.start ≤ (laterTouch (some e) p).start := by
  by_cases less : e.start < p.start
  · have next : laterTouch (some e) p = p := if_pos (.inr less)
    rw [next]
    exact ⟨.inr rfl, same, Nat.le_of_lt less, Nat.le_refl _⟩
  · have next : laterTouch (some e) p = e := if_neg (by simp [same, less])
    rw [next]
    exact ⟨.inl rfl, rfl, Nat.le_refl _, Nat.not_lt.mp less⟩

/-- Of two assignments the earlier is kept, when both are in the file of the first. -/
theorem earlierAssign_some (e p : Pos) :
    (earlierAssign (some e) p = e ∨ earlierAssign (some e) p = p) ∧
      (earlierAssign (some e) p).file = e.file ∧ (earlierAssign (some e) p).start ≤ e.start ∧
        (p.file = e.file → (earlierAssign (some e) p).start ≤ p.start) := by
  by_cases less : p.file = e.file ∧ p.start < e.start
  · have next : earlierAssign (some e) p = p := if_pos less
    rw [next]
    exact ⟨.inr rfl, less.1, Nat.le_of_lt less.2, fun _ => Nat.le_refl _⟩
  · have next : earlierAssign (some e) p = e := if_neg less
    rw [next]
    exact ⟨.inl rfl, rfl, Nat.le_refl _, fun same => Nat.not_lt.mp fun early =>
      less ⟨same, early⟩⟩

/-- The fold keeps the greatest start of the last run. -/
theorem latest_spec (e : Pos) (ps : List Pos) :
    ∃ t ∈ lastRun (e :: ps), latest (some e) ps = some t ∧
      ∀ q ∈ lastRun (e :: ps), q.file = t.file ∧ q.start ≤ t.start := by
  induction ps generalizing e with
  | nil => exact ⟨e, by simp [lastRun], rfl, by simp [lastRun]⟩
  | cons p ps ih =>
    change ∃ t ∈ _, latest (some (laterTouch (some e) p)) ps = some t ∧ _
    by_cases moved : p.file = e.file
    · -- Whichever of the two is kept stands for both of them.
      obtain ⟨t, mem, found, greatest⟩ := ih (laterTouch (some e) p)
      obtain ⟨kept, sameFile, above⟩ := laterTouch_same moved
      by_cases all : ∀ q ∈ ps, q.file = e.file
      · have whole : lastRun (e :: p :: ps) = e :: p :: ps := by
          rw [lastRun, if_pos (by simpa [moved] using all)]
        have rest : lastRun (laterTouch (some e) p :: ps) = laterTouch (some e) p :: ps := by
          rw [lastRun, if_pos (by simpa [sameFile] using all)]
        rw [rest] at mem greatest
        obtain ⟨isFile, isStart⟩ := greatest _ mem_cons_self
        refine ⟨t, ?_, found, ?_⟩
        · rw [whole]
          rcases mem_cons.mp mem with rfl | mem
          · rcases kept with kept | kept <;> simp [kept]
          · simp [mem]
        · rw [whole]
          intro q listed
          rcases mem_cons.mp listed with rfl | listed
          · exact ⟨by rw [← isFile, sameFile], by omega⟩
          · rcases mem_cons.mp listed with rfl | listed
            · exact ⟨by rw [← isFile, sameFile, moved], by omega⟩
            · exact greatest q (mem_cons_of_mem _ listed)
      · have rest : lastRun (laterTouch (some e) p :: ps) = lastRun ps := by
          rw [lastRun, if_neg (by simpa [sameFile] using all)]
        have skipped : lastRun (e :: p :: ps) = lastRun ps := by
          rw [lastRun_skip all, lastRun, if_neg (by simpa [moved] using all)]
        rw [rest] at mem greatest
        rw [skipped]
        exact ⟨t, mem, found, greatest⟩
    · have next : laterTouch (some e) p = p := if_pos (.inl moved)
      have skipped : lastRun (e :: p :: ps) = lastRun (p :: ps) := by
        rw [lastRun, if_neg fun all => moved (all p mem_cons_self)]
      rw [next, skipped]
      exact ih p

/-- The fold keeps the least start of the first file. -/
theorem earliest_spec (e : Pos) (ps : List Pos) :
    ∃ a ∈ inFirstFile (e :: ps), earliest (some e) ps = some a ∧
      ∀ q ∈ inFirstFile (e :: ps), q.file = a.file ∧ a.start ≤ q.start := by
  induction ps generalizing e with
  | nil => exact ⟨e, by simp [inFirstFile], rfl, by simp [inFirstFile]⟩
  | cons p ps ih =>
    obtain ⟨a, mem, found, least⟩ := ih (earlierAssign (some e) p)
    obtain ⟨kept, sameFile, below⟩ := earlierAssign_some e p
    simp only [inFirstFile, mem_filter, decide_eq_true_eq, sameFile] at mem least ⊢
    obtain ⟨listed, inFile⟩ := mem
    obtain ⟨-, first⟩ := least _ ⟨mem_cons_self, sameFile⟩
    refine ⟨a, ⟨?_, inFile⟩, found, ?_⟩
    · rcases mem_cons.mp listed with rfl | listed
      · rcases kept with kept | kept <;> simp [kept]
      · simp [listed]
    · rintro q ⟨stands, ofFile⟩
      refine ⟨ofFile.trans inFile.symm, ?_⟩
      rcases mem_cons.mp stands with rfl | stands
      · omega
      · rcases mem_cons.mp stands with rfl | stands
        · have := below.2 ofFile
          omega
        · exact (least q ⟨mem_cons_of_mem _ stands, ofFile⟩).2

/-- The latest position stands before the earliest one when each that is weighed does. -/
theorem latest_before_earliest (touches assigns : List Pos) :
    (∃ t ∈ latest none touches, ∃ a ∈ earliest none assigns, t.before a) ↔
      touches ≠ [] ∧ assigns ≠ [] ∧
        ∀ t ∈ lastRun touches, ∀ a ∈ inFirstFile assigns, t.before a := by
  cases touches with
  | nil => simp [latest]
  | cons e touches =>
    cases assigns with
    | nil => simp [earliest]
    | cons e' assigns =>
      obtain ⟨t, isTouch, latestIs, greatest⟩ := latest_spec e touches
      obtain ⟨a, isAssign, earliestIs, least⟩ := earliest_spec e' assigns
      change (∃ t ∈ latest (some e) touches, ∃ a ∈ earliest (some e') assigns, t.before a) ↔ _
      rw [latestIs, earliestIs]
      constructor
      · rintro ⟨_, ⟨⟩, _, ⟨⟩, sameFile, less⟩
        refine ⟨cons_ne_nil _ _, cons_ne_nil _ _, fun t' touched a' assigned => ?_⟩
        have upper := greatest t' touched
        have lower := least a' assigned
        exact ⟨by rw [upper.1, sameFile, lower.1], by omega⟩
      · rintro ⟨-, -, all⟩
        exact ⟨t, rfl, a, rfl, all t isTouch a isAssign⟩

theorem mem_insert_or (names : List String) (n name : String) :
    name ∈ names.insert n ↔ name ∈ names ∨ decide (n = name) = true := by
  rw [mem_insert_iff, decide_eq_true_iff, or_comm, eq_comm]

theorem mem_locals_record (e : Event) (name : String) :
    name ∈ (caps.record e).locals ↔ name ∈ caps.locals ∨ e.registers name = true := by
  cases e with
  | touch n ctx | mention n => exact mem_insert_or caps.locals n name
  | assign n p | zsuper => simp [record, Event.registers]

/-- What each event can only add to holds in the end when it held before or some event adds it. -/
theorem recordAll_iff (holds : Captures → Prop) (adds : Event → Prop)
    (step : ∀ caps e, holds (caps.record e) ↔ holds caps ∨ adds e) (events : List Event) :
    holds (caps.recordAll events) ↔ holds caps ∨ ∃ e ∈ events, adds e := by
  induction events generalizing caps with
  | nil => simp
  | cons e events ih =>
    change holds ((caps.record e).recordAll events) ↔ _
    rw [ih, step]
    simp [or_assoc]

theorem mem_locals_recordAll (events : List Event) (name : String) :
    name ∈ (caps.recordAll events).locals ↔
      name ∈ caps.locals ∨ ∃ e ∈ events, e.registers name = true :=
  recordAll_iff caps (name ∈ ·.locals) _ (fun caps e => mem_locals_record caps e name) events

theorem mem_nestedTouch_record (e : Event) (name : String) :
    name ∈ (caps.record e).nestedTouch ↔ name ∈ caps.nestedTouch ∨ e.nests name = true := by
  cases e with
  | touch n ctx =>
    cases nested : ctx.nested with
    | false => simp [record, Event.nests, nested]
    | true =>
      have inserted := mem_insert_or caps.nestedTouch n name
      simpa [record, Event.nests, nested] using inserted
  | mention n | assign n p | zsuper => simp [record, Event.nests]

section

variable (events : List Event) (name : String)

/-- The walk keeps the latest start of the constructs that touch a name. -/
theorem localsAt_recordAll : ∀ caps : Captures,
    (caps.recordAll events).localsAt name =
      latest (caps.localsAt name) (touchStarts name events) := by
  induction events with
  | nil => exact fun _ => rfl
  | cons e events ih =>
    intro caps
    change ((caps.record e).recordAll events).localsAt name = _
    rw [ih]
    cases e with
    | touch n ctx =>
      by_cases same : n = name
      · subst same
        simp [record, touchStarts, latest]
      · have other : name ≠ n := fun equal => same equal.symm
        simp [record, touchStarts, same, other]
    | mention n | assign n p | zsuper => rfl

/-- The walk keeps the earliest of the assignments of a name. -/
theorem outerAssignedAt_recordAll : ∀ caps : Captures,
    (caps.recordAll events).outerAssignedAt name =
      earliest (caps.outerAssignedAt name) (assignStarts name events) := by
  induction events with
  | nil => exact fun _ => rfl
  | cons e events ih =>
    intro caps
    change ((caps.record e).recordAll events).outerAssignedAt name = _
    rw [ih]
    cases e with
    | assign n p =>
      by_cases same : n = name
      · subst same
        simp [record, assignStarts, earliest]
      · have other : name ≠ n := fun equal => same equal.symm
        simp [record, assignStarts, same, other]
    | touch n ctx | mention n | zsuper => rfl

end

theorem zsuperForwards_record (e : Event) :
    (caps.record e).zsuperForwards = true ↔ caps.zsuperForwards = true ∨ e = .zsuper := by
  cases e <;> simp [record]

/-- Some event lists a name among the captured ones. -/
def Registered (name : String) (events : List Event) : Prop :=
  ∃ e ∈ events, e.registers name = true

variable {name : String} {first second : List Event}

theorem registered_append :
    Registered name (first ++ second) ↔ Registered name first ∨ Registered name second := by
  unfold Registered
  simp only [mem_append, or_and_right, exists_or]

variable {exclusions : List String} {n : String} (c : Ctx)

theorem registered_onRead (named : name ∈ unbound exclusions n) :
    Registered name (onRead (some c) exclusions n) := by
  by_cases excluded : n ∈ exclusions
  · simp [unbound, excluded] at named
  · obtain rfl : name = n := by simpa [unbound, excluded] using named
    exact ⟨.touch name c, by simp [onRead, excluded], by simp [Event.registers]⟩

theorem registered_onBind (named : name ∈ unbound exclusions n) :
    Registered name (onBind (some c) exclusions n) := by
  by_cases excluded : n ∈ exclusions
  · simp [unbound, excluded] at named
  · obtain rfl : name = n := by simpa [unbound, excluded] using named
    exact ⟨.mention name, by simp [onBind, excluded], by simp [Event.registers]⟩

theorem registered_onBinds {names : List (String × Pos)}
    (named : name ∈ names.flatMap fun n => unbound exclusions n.1) :
    Registered name (names.flatMap fun n => onBind (some c) exclusions n.1) := by
  obtain ⟨n, mem, here⟩ := mem_flatMap.mp named
  obtain ⟨e, recorded, registers⟩ := registered_onBind c here
  exact ⟨e, mem_flatMap.mpr ⟨n, mem, recorded⟩, registers⟩

theorem registered_of_append {a b : List String}
    (left : name ∈ a → Registered name first) (right : name ∈ b → Registered name second)
    (named : name ∈ a ++ b) : Registered name (first ++ second) :=
  registered_append.mpr ((mem_append.mp named).imp left right)

/-- Inside an escaping construct there is always a context. -/
theorem context_some (entry : Entry) (c : Ctx) (span : Option Pos) (body : List Hir) :
    ∃ inner, entry.context (some c) span body = some inner := by
  cases entry with
  | inline => exact ⟨c, rfl⟩
  | bodyStart | ownStart => exact ⟨⟨c.start, true⟩, rfl⟩

mutual
theorem registered_of_mentions : ∀ (t : Hir) (c : Ctx) (exclusions : List String) {name : String},
    name ∈ gather mentioning exclusions t → Registered name (walk (some c) exclusions t)
  | .localRead _ _, c, _, _ => registered_onRead c
  | .localWrite _ _ _ value, c, exclusions, _ =>
    registered_of_append (registered_onRead c) (registered_of_mentions value c exclusions)
  | .descend _ _ children, c, exclusions, _ => registered_of_mentionsAll children c exclusions
  | .block _ _ _ _ _ _, _, _, _ | .defMethod _ true _ _ _ _, _, _, _ | .classDef _ _, _, _, _
  | .targetLocal _ _, _, _, _ | .targetCall _ _ _, _, _, _ | .group _ _ _, _, _, _ =>
    fun named => nomatch named
  | .defMethod _ false _ _ defaults body, c, _, _ =>
    registered_of_append (registered_of_mentionsAll defaults ⟨c.start, true⟩ _)
      (registered_of_mentionsAll body ⟨c.start, true⟩ _)
  | .call _ kind receiver args kwargs block blockArg, c, exclusions, _ => fun named =>
    registered_append.mpr (.inr (registered_of_append
      (registered_of_mentionsOpt receiver c exclusions)
      (registered_of_append (registered_of_mentionsAll args c exclusions)
        (registered_of_append (registered_of_mentionsAll kwargs c exclusions)
          (registered_of_append (registered_of_mentionsOpt blockArg c exclusions)
            (registered_of_mentionsBlock block c exclusions kind.entry)))) named))
  | .forIn span target iterable body, c, exclusions, _ =>
    registered_of_append (registered_of_mentionsTarget target c exclusions span)
      (registered_of_append (registered_of_mentions iterable c exclusions)
        (registered_of_mentionsAll body c exclusions))
  | .patternArm _ nodes guarded body, c, exclusions, _ =>
    registered_of_append (registered_onBinds c)
      (registered_of_append (registered_of_mentionsAll nodes c exclusions)
        (registered_of_append (registered_of_mentionsOpt guarded c exclusions)
          (registered_of_mentionsAll body c exclusions)))
  | .rescueClause splats _ body, c, exclusions, _ =>
    registered_of_append (registered_of_mentionsAll splats c exclusions)
      (registered_of_append (registered_onBinds c) (registered_of_mentionsAll body c exclusions))

theorem registered_of_mentionsAll : ∀ (nodes : List Hir) (c : Ctx) (exclusions : List String)
    {name : String}, name ∈ gatherAll mentioning exclusions nodes →
      Registered name (walkAll (some c) exclusions nodes)
  | [], _, _, _ => fun named => nomatch named
  | node :: nodes, c, exclusions, _ =>
    registered_of_append (registered_of_mentions node c exclusions)
      (registered_of_mentionsAll nodes c exclusions)

theorem registered_of_mentionsOpt : ∀ (node : Option Hir) (c : Ctx) (exclusions : List String)
    {name : String}, name ∈ gatherOpt mentioning exclusions node →
      Registered name (walkOpt (some c) exclusions node)
  | none, _, _, _ => fun named => nomatch named
  | some node, c, exclusions, _ => registered_of_mentions node c exclusions

theorem registered_of_mentionsBlock : ∀ (block : Option Hir) (c : Ctx)
    (exclusions : List String) (entry : Entry) {name : String},
    name ∈ gatherBlock mentioning exclusions entry block →
      Registered name (walkBlock (some c) exclusions entry block)
  | none, _, _, _, _ => fun named => nomatch named
  | some node, c, exclusions, entry, name => by
    cases node with
    | block span opens bound own defaults body =>
      obtain ⟨inner, same⟩ := context_some entry c span body
      have inside := @registered_of_append name _ _ _ _
        (registered_of_mentionsAll defaults inner (exclusions ++ bound))
        (registered_of_mentionsAll body inner (exclusions ++ bound))
      rw [walkBlock, same]
      unfold gatherBlock
      split <;> exact inside
    | _ => exact fun named => nomatch named

theorem registered_of_mentionsTarget : ∀ (target : Hir) (c : Ctx) (exclusions : List String)
    (outerAt : Option Pos) {name : String}, name ∈ gatherTarget mentioning exclusions target →
      Registered name (walkMultiTarget (some c) exclusions outerAt target) := by
  intro target c exclusions outerAt name
  cases target with
  | targetLocal n stands => exact registered_onBind c
  | targetCall writeCall tmpName stands =>
    exact registered_of_append (registered_onBind c)
      (registered_of_mentions writeCall c exclusions)
  | group before splat after =>
    exact registered_of_append (registered_of_mentionsTargets before c exclusions outerAt)
      (registered_of_append (registered_of_mentionsTargets after c exclusions outerAt)
        (registered_of_mentionsTargetOpt splat c exclusions outerAt))
  | _ => exact fun named => nomatch named

theorem registered_of_mentionsTargets : ∀ (targets : List Hir) (c : Ctx)
    (exclusions : List String) (outerAt : Option Pos) {name : String},
    name ∈ gatherTargets mentioning exclusions targets →
      Registered name (walkMultiTargets (some c) exclusions outerAt targets)
  | [], _, _, _, _ => fun named => nomatch named
  | target :: targets, c, exclusions, outerAt, _ =>
    registered_of_append (registered_of_mentionsTarget target c exclusions outerAt)
      (registered_of_mentionsTargets targets c exclusions outerAt)

theorem registered_of_mentionsTargetOpt : ∀ (target : Option Hir) (c : Ctx)
    (exclusions : List String) (outerAt : Option Pos) {name : String},
    name ∈ gatherTargetOpt mentioning exclusions target →
      Registered name (walkMultiTargetOpt (some c) exclusions outerAt target)
  | none, _, _, _, _ => fun named => nomatch named
  | some target, c, exclusions, outerAt, _ =>
    registered_of_mentionsTarget target c exclusions outerAt
end

/-- A closure captures every name it mentions. -/
theorem Closure.mem_captures {c : Closure} (named : name ∈ c.mentions) :
    name ∈ c.captures.locals := by
  unfold Closure.captures
  rw [mem_locals_recordAll]
  exact .inr (registered_of_append (registered_of_mentionsAll c.defaults _ c.bound)
    (registered_of_mentionsAll c.body _ c.bound) named)

variable (scope : Scope)

/-- Where the escaping constructs start that touch a name. -/
def Scope.touches (name : String) : List Pos := touchStarts name scope.events

/-- Where the walk knows the scope to assign a name. -/
def Scope.recorded (name : String) : List Pos := assignStarts name scope.events

/-- Every construct that is weighed starts before every assignment that is, and no nested one
touches the name. -/
def Scope.TouchedFirst (name : String) : Prop :=
  name ∉ scope.params ∧ (¬ ∃ e ∈ scope.events, e.nests name = true) ∧
    scope.touches name ≠ [] ∧ scope.recorded name ≠ [] ∧
      ∀ t ∈ lastRun (scope.touches name), ∀ a ∈ inFirstFile (scope.recorded name), t.before a

/-- The sweep drops a name exactly when it is touched first. -/
theorem Scope.keeps_iff (name : String) : scope.keeps name = true ↔ ¬ scope.TouchedFirst name := by
  have nested : name ∈ scope.raw.nestedTouch ↔ ∃ e ∈ scope.events, e.nests name = true := by
    unfold Scope.raw
    rw [recordAll_iff _ (name ∈ ·.nestedTouch) _ fun caps e => mem_nestedTouch_record caps e name]
    simp [Captures.default]
  have touched : scope.raw.localsAt name = latest none (scope.touches name) :=
    localsAt_recordAll _ _ _
  have assigned : scope.raw.outerAssignedAt name = earliest none (scope.recorded name) :=
    outerAssignedAt_recordAll _ _ _
  unfold Scope.keeps Scope.TouchedFirst
  rw [touched, assigned, ← nested, ← latest_before_earliest]
  by_cases early : name ∈ scope.params ∨ name ∈ scope.raw.nestedTouch
  · rw [if_pos early]
    exact ⟨fun _ both => early.elim both.1 both.2.1, fun _ => rfl⟩
  · rw [if_neg early]
    obtain ⟨notParam, plain⟩ := not_or.mp early
    cases latest none (scope.touches name) with
    | none => simp
    | some t =>
      cases earliest none (scope.recorded name) with
      | none => simp
      | some a => simp [notParam, plain, Pos.before, imp_iff_not_or]

/-- A name gets a cell when the scope declares it and takes a binding that promotes it, or forwards
it with a bare `super` in a block, or a construct names it and it is not touched first. -/
def Scope.Given (name : String) : Prop :=
  name ∈ scope.promoted ∨ (Event.zsuper ∈ scope.events ∧ name ∈ scope.params) ∨
    (Registered name scope.events ∧ ¬ scope.TouchedFirst name)

/-- A cell is given to the names that are hoisted and given one. -/
theorem Scope.isCell_iff (name : String) :
    scope.isCell name = true ↔ name ∈ scope.hoisted ∧ scope.Given name := by
  have registered : name ∈ scope.raw.locals ↔ Registered name scope.events := by
    unfold Scope.raw
    rw [mem_locals_recordAll]
    simp [Captures.default, Registered]
  have forwards : scope.raw.zsuperForwards = true ↔ Event.zsuper ∈ scope.events := by
    unfold Scope.raw
    rw [recordAll_iff _ (·.zsuperForwards = true) _ zsuperForwards_record]
    simp [Captures.default]
  have forwarded : (name ∈ if scope.raw.zsuperForwards = true then scope.params else []) ↔
      Event.zsuper ∈ scope.events ∧ name ∈ scope.params := by
    rw [← forwards]
    by_cases forwarding : scope.raw.zsuperForwards = true
    · simp
    · simp
  unfold Scope.isCell Scope.Given Scope.captures
  rw [Bool.and_eq_true, decide_eq_true_iff, decide_eq_true_iff, mem_append, mem_filter,
    Bool.and_eq_true, decide_eq_true_iff, forwarded, registered, scope.keeps_iff]
  constructor
  · rintro ⟨declared, (⟨named, -, kept⟩ | given) | promoted⟩
    · exact ⟨declared, .inr (.inr ⟨named, kept⟩)⟩
    · exact ⟨declared, .inr (.inl given)⟩
    · exact ⟨declared, .inl promoted⟩
  · rintro ⟨declared, promoted | given | ⟨named, kept⟩⟩
    · exact ⟨declared, .inr promoted⟩
    · exact ⟨declared, .inl (.inr given)⟩
    · exact ⟨declared, .inl (.inl ⟨named, declared, kept⟩)⟩

/-- The escaping constructs of a scope that name a local and see the scope's. -/
def Scope.naming (name : String) : List Closure :=
  scope.closures.filter fun c => decide (name ∈ c.mentions ∧ name ∉ c.hidden)

/-- A local whose blocks all stand on one side of its first assignment, and whose recorded
positions show that side. -/
structure Scope.OneSided (name : String) : Prop where
  /-- Where one block stands behind an assignment, so does every other. -/
  together : name ∉ scope.params → ∀ c ∈ scope.naming name, ∀ c' ∈ scope.naming name,
    (∃ p ∈ scope.assigned name, p.before c.opens) → ∃ p ∈ scope.assigned name, p.before c'.opens
  /-- All blocks are behind it: the scope declares the local, and a construct with a position names
  it, not each of those weighed starting before the assignments that are. A binding taken in the
  scope, or a bare `super` in a block, stands for such a construct. -/
  behind : scope.naming name ≠ [] →
    (∀ c ∈ scope.naming name,
      name ∈ scope.params ∨ ∃ p ∈ scope.assigned name, p.before c.opens) →
    name ∈ scope.hoisted ∧ (name ∈ scope.promoted ∨
      (Event.zsuper ∈ scope.events ∧ name ∈ scope.params) ∨
        (Registered name scope.events ∧ ¬ scope.TouchedFirst name))
  /-- All blocks are before it: those with a position start before the assignments on record. -/
  ahead : scope.naming name ≠ [] → name ∉ scope.params →
    (∀ c ∈ scope.naming name, ∀ p ∈ scope.assigned name, ¬ p.before c.opens) →
    name ∈ scope.hoisted → name ∉ scope.promoted ∧
      (Registered name scope.events → scope.TouchedFirst name)

theorem Scope.mem_naming {c : Closure} {name : String} :
    c ∈ scope.naming name ↔ c ∈ scope.closures ∧ name ∈ c.mentions ∧ name ∉ c.hidden := by
  rw [Scope.naming, mem_filter, decide_eq_true_iff]

/-- A closure shares a name it mentions exactly when the name has a cell. -/
theorem Scope.mem_capturedNames {c : Closure} (named : name ∈ c.mentions) :
    name ∈ scope.capturedNames c ↔ name ∈ scope.hoisted ∧ scope.Given name := by
  unfold Scope.capturedNames
  rw [mem_filter, scope.isCell_iff]
  exact ⟨fun both => both.2, fun shared => ⟨Closure.mem_captures named, shared⟩⟩

/-- The call `proc` at an offset, with a block whose one statement is given. -/
def procAt (start opens : Nat) (own : List String) (statement : Hir) : Hir :=
  .call (some ⟨0, start⟩) (.call false false) none [] []
    (some (.block (some ⟨0, start⟩) ⟨0, opens⟩ [] own [] [statement])) none

def literalAt (start : Nat) (name : String) : Hir :=
  .localWrite (some ⟨0, start⟩) ⟨0, start⟩ name (.descend (some ⟨0, start + 4⟩) "IntegerLit" [])

/-- The program `a = proc { x = 1 }; x = 5; b = proc { x }`. -/
def aroundAssignment : Scope where
  params := []
  defaults := []
  body :=
    [.localWrite (some ⟨0, 0⟩) ⟨0, 0⟩ "a" (procAt 4 11 ["x"] (literalAt 11 "x")),
     literalAt 20 "x",
     .localWrite (some ⟨0, 27⟩) ⟨0, 27⟩ "b" (procAt 31 38 [] (.localRead (some ⟨0, 38⟩) "x"))]
  promoted := []

end Zeo.Capture
