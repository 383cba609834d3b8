import Zeo.Analyze.Mro
import Zeo.Lib.Collect

/-!
# The singleton methods of an object

An object has one table of singleton rows. A `def` on the object writes a row of it, and an `extend`
copies the module's rows into it, so that dispatch looks in the table once and then goes on to the
object's class. A definition in a module refreshes the copies that were taken from that module. The
results say when this is what a walk along the singleton's chain would find.
-/

namespace Zeo.Meta.Singletons

open Zeo.Lib Zeo.Analyze List Option
open Function (update update_of_ne update_self)

abbrev Name := String

abbrev ObjId := Nat

/-- What the program was compiled to, and what no step changes. `Body` is a method's
implementation. -/
structure Registry (Body : Type) where
  /-- `ancestors_of_value`, which is `frozen_ancestors` when nothing is mixed in at run time. -/
  ancestors : ClassId → List ClassId
  isModule : ClassId → Bool
  own : ClassId → List (Name × Body)
  /-- `reachable_chain`. -/
  reachable : ClassId → Bool
  classFrozen : ClassId → Bool
  classId : ObjId → ClassId
  frozen : ObjId → Bool
  self : ∀ h, h ∈ ancestors h

structure Overlay (Body : Type) where
  singletons : ObjId → Name → Option Body
  /-- The module that an `extend` copied a row from. -/
  extendedNames : ObjId → Name → Option ClassId
  extended : ObjId → List ClassId
  methods : ClassId → List (Name × Body)
  removed : ClassId → Name → Bool

inductive Refusal where
  /-- The argument of `extend` is no module. -/
  | notModule
  | frozenObject
  | frozenClass
deriving DecidableEq, Repr

inductive Event (Body : Type) where
  /-- `def o.m`. -/
  | defSingleton (o : ObjId) (m : Name) (body : Body)
  /-- `o.extend(mid)`. -/
  | extend (o : ObjId) (mid : ClassId)
  | define (id : ClassId) (m : Name) (body : Body)

section Code

variable {Body : Type} (registry : Registry Body)

def initial : Overlay Body := ⟨fun _ _ => none, fun _ _ => none, fun _ => [], fun _ => [],
  fun _ _ => false⟩

variable (overlay : Overlay Body)

/-- `module_own_method_impl`, which is what a class or module defines itself. -/
def ownMethod (id : ClassId) (m : Name) : Option Body :=
  ((overlay.methods id).lookup m).or ((registry.own id).lookup m)

/-- `module_extendable_method_names`. -/
def extendableNames (mid : ClassId) : List Name :=
  addAll [] ((overlay.methods mid).map Prod.fst ++ (registry.own mid).map Prod.fst)

def copyRow (mid : ClassId) (state : (Name → Option Body) × List Name) (name : Name) :
    (Name → Option Body) × List Name :=
  match ownMethod registry overlay mid name with
  | some body => (update state.1 name (some body), state.2 ++ [name])
  | none => state

/-- `record_extended_names`, for one object. -/
def recordNames (mid : ClassId) (table : Name → Option ClassId) (names : List Name) :
    Name → Option ClassId :=
  names.foldl (fun table name => update table name (some mid)) table

/-- The mixing of `extend_object_default` for an object. -/
def extendWith (o : ObjId) (mid : ClassId) : Overlay Body :=
  let copies := (extendableNames registry overlay mid).foldl (copyRow registry overlay mid)
    (overlay.singletons o, [])
  { overlay with
    singletons := update overlay.singletons o copies.1
    extendedNames := update overlay.extendedNames o
      (recordNames mid (overlay.extendedNames o) copies.2)
    extended := update overlay.extended o (overlay.extended o ++ [mid]) }

/-- `extend_object_default` for an object, behind `check_module_arg`. -/
def extendObject (o : ObjId) (mid : ClassId) : Except Refusal (Overlay Body) :=
  if registry.isModule mid = false then .error .notModule
  else if mid ∈ overlay.extended o then .ok overlay
  else if registry.frozen o then .error .frozenObject
  else .ok (extendWith registry overlay o mid)

/-- `runtime_define_singleton_method` for an object. -/
def defineSingletonMethod (o : ObjId) (m : Name) (body : Body) : Except Refusal (Overlay Body) :=
  if registry.frozen o then .error .frozenObject
  else .ok { overlay with
    singletons := update overlay.singletons o
      (update (overlay.singletons o) m (some body))
    extendedNames := update overlay.extendedNames o
      (update (overlay.extendedNames o) m none) }

/-- `scan_owner` along a chain. -/
def scanOwner (overlay : Overlay Body) (m : Name) : List ClassId → Option ClassId
  | [] => none
  | anc :: rest =>
    if overlay.removed anc m then scanOwner overlay m rest
    else if (ownMethod registry overlay anc m).isSome then some anc
    else scanOwner overlay m rest

/-- Whether a class is one of the `mixin_hosts` of a module for a name. -/
def isHost (mid : ClassId) (m : Name) (h : ClassId) : Bool :=
  registry.isModule mid && (registry.ancestors h).contains mid && h != mid &&
    registry.reachable h && scanOwner registry overlay m (registry.ancestors h) == some mid

/-- `refresh_extended_copies`, for one object. -/
def refreshCopies (id : ClassId) (m : Name) (body : Body) (sources : Name → Option ClassId)
    (table : Name → Option Body) : Name → Option Body :=
  if sources m = some id then update table m (some body) else table

/-- `runtime_define_method`. -/
def defineMethod (id : ClassId) (m : Name) (body : Body) : Except Refusal (Overlay Body) :=
  if registry.classFrozen id then .error .frozenClass
  else .ok { overlay with
    methods := update overlay.methods id ((m, body) :: overlay.methods id)
    removed := fun h name =>
      if name = m then
        if h = id then false else overlay.removed h m || isHost registry overlay id m h
      else overlay.removed h name
    singletons := fun o => refreshCopies id m body (overlay.extendedNames o) (overlay.singletons o) }

def step : Event Body → Except Refusal (Overlay Body)
  | .defSingleton o m body => defineSingletonMethod registry overlay o m body
  | .extend o mid => extendObject registry overlay o mid
  | .define id m body => defineMethod registry overlay id m body

def exec (event : Event Body) : Overlay Body :=
  match step registry overlay event with
  | .ok next => next
  | .error _ => overlay

def run (events : List (Event Body)) : Overlay Body := events.foldl (exec registry) initial

/-- The walk of `resolve_dynamic` along the chain of a compiled class. A compiled definition ends
it. -/
def resolveInClass (overlay : Overlay Body) (m : Name) : List ClassId → Option Body
  | [] => none
  | anc :: rest =>
    if overlay.removed anc m then resolveInClass overlay m rest
    else
      match (overlay.methods anc).lookup m with
      | some body => some body
      | none =>
        if ((registry.own anc).lookup m).isSome then none else resolveInClass overlay m rest

def resolveDynamic (o : ObjId) (m : Name) : Option Body :=
  match overlay.singletons o m with
  | some body => some body
  | none => resolveInClass registry overlay m (registry.ancestors (registry.classId o))

/-- `flat_answer_retired` along a chain. -/
def flatAnswerRetired (overlay : Overlay Body) (m : Name) : Bool → List ClassId → Bool
  | crossed, [] => crossed
  | crossed, anc :: rest =>
    if overlay.removed anc m then flatAnswerRetired overlay m true rest
    else if ((registry.own anc).lookup m).isSome then false
    else flatAnswerRetired overlay m crossed rest

/-- The compiled row of a class, which is the nearest compiled definition of its chain. -/
def flatRow (id : ClassId) (m : Name) : Option Body :=
  (registry.ancestors id).findSome? fun anc => (registry.own anc).lookup m

/-- `lookup_mro`: the class's own row, and then the rows along its chain. A class that gave up the
position is passed over. -/
def lookupMro (id : ClassId) (m : Name) : Option Body :=
  (id :: (registry.ancestors id).tail).findSome? fun anc =>
    if overlay.removed anc m then none else flatRow registry anc m

/-- The method that `send_in` runs. -/
def dispatch (o : ObjId) (m : Name) : Option Body :=
  match resolveDynamic registry overlay o m with
  | some body => some body
  | none =>
    if flatAnswerRetired registry overlay m false (registry.ancestors (registry.classId o)) then
      none
    else lookupMro registry overlay (registry.classId o) m

/-- `singleton_super_chain` of an object. -/
def singletonSuperChain (o : ObjId) : List ClassId :=
  addAll (addAll [] ((overlay.extended o).reverse.flatMap registry.ancestors))
    (registry.ancestors (registry.classId o))

/-- The singleton method that the steps gave an object under a name: the last `def` that was not
refused. -/
def ownDef (o : ObjId) (m : Name) (events : List (Event Body)) : Option Body :=
  events.foldl (fun last event =>
    match event with
    | .defSingleton o' m' body =>
      if o' = o ∧ m' = m ∧ registry.frozen o = false then some body else last
    | _ => last) none

/-- What the first class of a chain that defines a name defines it as. -/
def firstOf (m : Name) (chain : List ClassId) : Option Body :=
  chain.findSome? fun id => ownMethod registry overlay id m

/-- The first position among the object's singleton methods and its singleton's chain. -/
def expected (events : List (Event Body)) (o : ObjId) (m : Name) : Option Body :=
  (ownDef registry o m events).or
    (firstOf registry (run registry events) m (singletonSuperChain registry (run registry events) o))

end Code

section ClassWalk

variable {Body : Type} {registry : Registry Body} {c : ClassId}

/-- The chain of a class keeps the chains of its classes: they are within it, and what comes ahead of
a class in its own chain comes ahead of it here. -/
structure KeepsChains (registry : Registry Body) (c : ClassId) : Prop where
  within : ∀ h ∈ registry.ancestors c, registry.ancestors h ⊆ registry.ancestors c
  ahead : ∀ h before' after', registry.ancestors h = before' ++ h :: after' →
    ∀ before after, registry.ancestors c = before ++ h :: after → before' ⊆ before

/-- A class that is passed over for a name, which it has given up or does not define. -/
def Passed (registry : Registry Body) (overlay : Overlay Body) (m : Name) (id : ClassId) : Prop :=
  overlay.removed id m = true ∨ ownMethod registry overlay id m = none

/-- What a class of the chain gave up is answered ahead of it: a definition by a class that was given
the name at run time, and the chain as a whole by the first that has not given it up. -/
structure Retired (registry : Registry Body) (c : ClassId) (m : Name) (overlay : Overlay Body) :
    Prop where
  behind : ∀ before h after, registry.ancestors c = before ++ h :: after →
    overlay.removed h m = true → ownMethod registry overlay h m = none ∨
      ∃ mid ∈ before, ((overlay.methods mid).lookup m).isSome = true
  answered : overlay.removed c m = true → ∃ before w after,
    registry.ancestors c = before ++ w :: after ∧ overlay.removed w m = false ∧
      ((overlay.methods w).lookup m).isSome = true ∧
      ∀ a ∈ before, Passed registry overlay m a

variable {overlay : Overlay Body} {m : Name}

/-- What a class defines is what it was given at run time, or else what it was compiled with. -/
theorem ownMethod_eq_none {id : ClassId} :
    ownMethod registry overlay id m = none ↔
      (overlay.methods id).lookup m = none ∧ (registry.own id).lookup m = none :=
  or_eq_none_iff

/-- The walk finds the first definition of a chain, or leaves it to the compiled rows. -/
theorem resolveInClass_spec (retired : Retired registry c m overlay) {rest : List ClassId} :
    ∀ (done : List ClassId) (crossed : Bool), registry.ancestors c = done ++ rest →
      (∀ a ∈ done, (overlay.methods a).lookup m = none) →
      (∀ body, resolveInClass registry overlay m rest = some body →
        firstOf registry overlay m rest = some body) ∧
      (resolveInClass registry overlay m rest = none →
        (rest.findSome? fun anc => (registry.own anc).lookup m) = firstOf registry overlay m rest ∧
        (flatAnswerRetired registry overlay m crossed rest = true →
          firstOf registry overlay m rest = none)) := by
  induction rest with
  | nil =>
    intro done crossed _ _
    exact ⟨fun body found => (nomatch found), fun _ => ⟨rfl, fun _ => rfl⟩⟩
  | cons anc rest ih =>
    intro done crossed chain silent
    have shifted : registry.ancestors c = (done ++ [anc]) ++ rest := by
      rw [chain, append_assoc]
      rfl
    -- A class that does not define the name is passed over by both walks.
    have passed : ownMethod registry overlay anc m = none → ∀ crossed, _ :=
      fun undefined crossed => ih (done ++ [anc]) crossed shifted (by
        intro a mem
        rcases mem_append.mp mem with old | new
        · exact silent a old
        · rw [mem_singleton.mp new]
          exact (ownMethod_eq_none.mp undefined).1)
    unfold resolveInClass flatAnswerRetired
    cases gone : overlay.removed anc m with
    | true =>
      have undefined : ownMethod registry overlay anc m = none := by
        rcases retired.behind done anc rest chain gone with undefined | ⟨mid, earlier, given⟩
        · exact undefined
        · rw [silent mid earlier] at given
          exact nomatch given
      have compiled := (ownMethod_eq_none.mp undefined).2
      simp only [List.findSome?_cons, compiled, firstOf, undefined]
      exact passed undefined true
    | false =>
      cases given : (overlay.methods anc).lookup m with
      | some body =>
        have defined : ownMethod registry overlay anc m = some body := by
          unfold ownMethod
          rw [given]
          rfl
        refine ⟨fun other found => ?_, fun missed => nomatch missed⟩
        rw [firstOf, List.findSome?_cons, defined]
        exact found
      | none =>
        cases compiled : (registry.own anc).lookup m with
        | some body =>
          have defined : ownMethod registry overlay anc m = some body := by
            unfold ownMethod
            rw [given, compiled]
            rfl
          refine ⟨fun other found => (nomatch found), fun _ => ⟨?_, fun later => (nomatch later)⟩⟩
          rw [firstOf, List.findSome?_cons, List.findSome?_cons, defined, compiled]
        | none =>
          have undefined : ownMethod registry overlay anc m = none :=
            ownMethod_eq_none.mpr ⟨given, compiled⟩
          simp only [List.findSome?_cons, compiled, firstOf, undefined]
          exact passed undefined crossed

/-- The walk stops at a class that was given the name, unless one that has the name is ahead. -/
theorem resolveInClass_of_answered {w : ClassId} {after : List ClassId}
    (kept : overlay.removed w m = false) (given : ((overlay.methods w).lookup m).isSome = true)
    (before : List ClassId)
    (clear : ∀ a ∈ before, Passed registry overlay m a) :
    resolveInClass registry overlay m (before ++ w :: after) ≠ none := by
  induction before with
  | nil =>
    obtain ⟨body, found⟩ := isSome_iff_exists.mp given
    simp [resolveInClass, kept, found]
  | cons a before ih =>
    obtain ⟨here, later⟩ := forall_mem_cons.mp clear
    rw [cons_append, resolveInClass]
    rcases here with gone | undefined
    · rw [if_pos gone]
      exact ih later
    · obtain ⟨given, compiled⟩ := ownMethod_eq_none.mp undefined
      simpa [given, compiled] using ih later

/-- A class that is still there answers with its compiled row, and the rest of its chain adds
nothing to that. -/
theorem lookupMro_eq (keeps : KeepsChains registry c) (kept : overlay.removed c m = false) :
    lookupMro registry overlay c m = flatRow registry c m := by
  rw [lookupMro, List.findSome?_cons, if_neg (by rw [kept]; decide)]
  cases row : flatRow registry c m with
  | some body => rfl
  | none =>
    refine findSome?_eq_none_iff.mpr fun anc mem => ?_
    rw [flatRow, findSome?_eq_none_iff] at row
    split
    · rfl
    · exact findSome?_eq_none_iff.mpr fun a inside =>
        row a (keeps.within anc (mem_of_mem_tail mem) inside)

/-- An object without a row runs what its class's chain defines first. -/
theorem dispatch_of_no_row {o : ObjId} (keeps : KeepsChains registry (registry.classId o))
    (retired : Retired registry (registry.classId o) m overlay)
    (none : overlay.singletons o m = none) :
    dispatch registry overlay o m =
      firstOf registry overlay m (registry.ancestors (registry.classId o)) := by
  obtain ⟨found, missed⟩ := resolveInClass_spec retired [] false rfl (by simp)
  unfold dispatch resolveDynamic
  rw [none]
  cases walk : resolveInClass registry overlay m (registry.ancestors (registry.classId o)) with
  | some body => exact (found body walk).symm
  | none =>
    have kept : overlay.removed (registry.classId o) m = false := by
      by_contra gone
      obtain ⟨before, w, after, chain, here, given, clear⟩ :=
        retired.answered (eq_true_of_ne_false gone)
      rw [chain] at walk
      exact resolveInClass_of_answered here given before clear walk
    obtain ⟨same, below⟩ := missed walk
    dsimp only
    split
    · rename_i retired
      exact (below retired).symm
    · rw [lookupMro_eq keeps kept]
      exact same

/-- The owner of a name is the first of a chain that defines it and has not given it up. -/
theorem scanOwner_eq_some {chain : List ClassId} {mid : ClassId}
    (owner : scanOwner registry overlay m chain = some mid) :
    ∃ before after, chain = before ++ mid :: after ∧ overlay.removed mid m = false ∧
      (ownMethod registry overlay mid m).isSome = true ∧
      ∀ a ∈ before, Passed registry overlay m a := by
  induction chain with
  | nil => exact nomatch owner
  | cons anc rest ih =>
    have later (here : Passed registry overlay m anc)
        (found : scanOwner registry overlay m rest = some mid) :
        ∃ before after, anc :: rest = before ++ mid :: after ∧ overlay.removed mid m = false ∧
          (ownMethod registry overlay mid m).isSome = true ∧
          ∀ a ∈ before, Passed registry overlay m a := by
      obtain ⟨before, after, rfl, kept, defined, clear⟩ := ih found
      exact ⟨anc :: before, after, rfl, kept, defined, forall_mem_cons.mpr ⟨here, clear⟩⟩
    unfold scanOwner at owner
    split at owner
    · rename_i gone
      exact later (.inl gone) owner
    · rename_i kept
      split at owner
      · rename_i defined
        obtain rfl := some.inj owner
        exact ⟨[], rest, rfl, eq_false_of_ne_true kept, defined, forall_mem_nil _⟩
      · rename_i undefined
        exact later (.inr (not_isSome_iff_eq_none.mp undefined)) owner

/-- A class that has a name and is a host of a module has the module ahead of it, in its own chain
and in every chain that keeps that. -/
theorem mem_before_of_isHost (keeps : KeepsChains registry c) {mid h : ClassId}
    (host : isHost registry overlay mid m h = true) (differs : h ≠ mid)
    (kept : overlay.removed h m = false) (defined : ownMethod registry overlay h m ≠ none)
    {before after : List ClassId} (chain : registry.ancestors c = before ++ h :: after) :
    mid ∈ before := by
  have owner : scanOwner registry overlay m (registry.ancestors h) = some mid := by
    unfold isHost at host
    simp only [Bool.and_eq_true, beq_iff_eq] at host
    exact host.2
  obtain ⟨first, rest, own, -, -, clear⟩ := scanOwner_eq_some owner
  have inside : h ∈ first ++ mid :: rest := own ▸ registry.self h
  have notFirst : h ∉ first := fun mem => (clear h mem).elim
    (fun gone => by rw [kept] at gone; exact nomatch gone) defined
  have behind := (mem_cons.mp ((mem_append.mp inside).resolve_left notFirst)).resolve_left differs
  obtain ⟨middle, last, rfl⟩ := append_of_mem behind
  have split : registry.ancestors h = (first ++ mid :: middle) ++ h :: last := by
    rw [own, append_assoc]
    rfl
  exact keeps.ahead h _ _ split before after chain (by simp)

end ClassWalk

section Steps

variable {Body : Type} (registry : Registry Body) (overlay : Overlay Body)

theorem foldl_copyRow (mid : ClassId) (names : List Name)
    (state : (Name → Option Body) × List Name) (n : Name) :
    (names.foldl (copyRow registry overlay mid) state).1 n =
        (if n ∈ names then ownMethod registry overlay mid n else none).or (state.1 n) ∧
      (n ∈ (names.foldl (copyRow registry overlay mid) state).2 ↔
        n ∈ state.2 ∨ n ∈ names ∧ (ownMethod registry overlay mid n).isSome = true) := by
  induction names generalizing state with
  | nil => simp
  | cons name names ih =>
    obtain ⟨row, copied⟩ := ih (copyRow registry overlay mid state name)
    rw [foldl_cons, row, copied]
    unfold copyRow
    by_cases same : n = name
    · subst same
      cases defined : ownMethod registry overlay mid n with
      | none => simp
      | some body =>
        by_cases again : n ∈ names <;> simp [again]
    · cases defined : ownMethod registry overlay mid name with
      | none | some body => simp [same]

theorem mem_extendableNames {mid : ClassId} {n : Name}
    (defined : (ownMethod registry overlay mid n).isSome = true) :
    n ∈ extendableNames registry overlay mid := by
  have listed : ∀ rows : List (Name × Body), (rows.lookup n).isSome = true →
      n ∈ rows.map Prod.fst := by
    intro rows found
    obtain ⟨row, mem, same⟩ := lookup_isSome_iff.mp found
    exact mem_map.mpr ⟨row, mem, (eq_of_beq same).symm⟩
  unfold extendableNames
  rw [mem_addAll, mem_append]
  unfold ownMethod at defined
  cases given : (overlay.methods mid).lookup n with
  | some body => exact .inr (.inl (listed _ (by rw [given]; rfl)))
  | none =>
    rw [given] at defined
    exact .inr (.inr (listed _ defined))

theorem recordNames_eq (mid : ClassId) (table : Name → Option ClassId) (names : List Name)
    (n : Name) : recordNames mid table names n = if n ∈ names then some mid else table n := by
  unfold recordNames
  induction names generalizing table with
  | nil => simp
  | cons name names ih =>
    rw [foldl_cons, ih]
    by_cases same : n = name
    · subst same
      simp
    · simp [same]

variable (o : ObjId)

theorem exec_extend (mid : ClassId) :
    exec registry overlay (.extend o mid) = overlay ∨
      registry.frozen o = false ∧ mid ∉ overlay.extended o ∧
        exec registry overlay (.extend o mid) = extendWith registry overlay o mid := by
  by_cases module : registry.isModule mid = false
  · exact .inl (by simp [exec, step, extendObject, module])
  by_cases known : mid ∈ overlay.extended o
  · exact .inl (by simp [exec, step, extendObject, module, known])
  cases frozen : registry.frozen o with
  | true => exact .inl (by simp [exec, step, extendObject, module, known, frozen])
  | false => exact .inr ⟨rfl, known, by simp [exec, step, extendObject, module, known, frozen]⟩

theorem extendWith_row (mid : ClassId) (n : Name) :
    (extendWith registry overlay o mid).singletons o n =
      (ownMethod registry overlay mid n).or (overlay.singletons o n) := by
  unfold extendWith
  dsimp only
  rw [update_self, (foldl_copyRow registry overlay mid _ _ n).1]
  cases defined : ownMethod registry overlay mid n with
  | none => simp
  | some body => rw [if_pos (mem_extendableNames registry overlay (by rw [defined]; rfl))]

theorem extendWith_source (mid : ClassId) (n : Name) :
    (extendWith registry overlay o mid).extendedNames o n =
      if (ownMethod registry overlay mid n).isSome then some mid
      else overlay.extendedNames o n := by
  unfold extendWith
  dsimp only
  rw [update_self, recordNames_eq]
  simp only [(foldl_copyRow registry overlay mid _ _ n).2, not_mem_nil, false_or]
  cases defined : (ownMethod registry overlay mid n).isSome with
  | false => simp
  | true => rw [if_pos ⟨mem_extendableNames registry overlay defined, rfl⟩, if_pos rfl]

theorem exec_defSingleton (m : Name) (body : Body) :
    registry.frozen o = true ∧ exec registry overlay (.defSingleton o m body) = overlay ∨
      registry.frozen o = false ∧ exec registry overlay (.defSingleton o m body) =
        { overlay with
          singletons := update overlay.singletons o
            (update (overlay.singletons o) m (some body))
          extendedNames := update overlay.extendedNames o
            (update (overlay.extendedNames o) m none) } := by
  cases frozen : registry.frozen o with
  | true => exact .inl ⟨rfl, by simp [exec, step, defineSingletonMethod, frozen]⟩
  | false => exact .inr ⟨rfl, by simp [exec, step, defineSingletonMethod, frozen]⟩

theorem exec_define (id : ClassId) (m : Name) (body : Body) :
    registry.classFrozen id = true ∧ exec registry overlay (.define id m body) = overlay ∨
      registry.classFrozen id = false ∧ exec registry overlay (.define id m body) =
        { overlay with
          methods := update overlay.methods id ((m, body) :: overlay.methods id)
          removed := fun h name =>
            if name = m then
              if h = id then false else overlay.removed h m || isHost registry overlay id m h
            else overlay.removed h name
          singletons := fun o =>
            refreshCopies id m body (overlay.extendedNames o) (overlay.singletons o) } := by
  cases frozen : registry.classFrozen id with
  | true => exact .inl ⟨rfl, by simp [exec, step, defineMethod, frozen]⟩
  | false => exact .inr ⟨rfl, by simp [exec, step, defineMethod, frozen]⟩

variable {overlay overlay' : Overlay Body} {id : ClassId} {body : Body}

theorem ownMethod_define
    (written : overlay'.methods = update overlay.methods id ((m, body) :: overlay.methods id))
    (id' : ClassId) (m' : Name) :
    ownMethod registry overlay' id' m' =
      if id' = id ∧ m' = m then some body else ownMethod registry overlay id' m' := by
  unfold ownMethod
  rw [written]
  by_cases here : id' = id
  · subst here
    rw [update_self, lookup_cons]
    by_cases named : m' = m
    · subst named
      simp
    · have differs : (m' == m) = false := by simpa using named
      simp [named, differs]
  · simp [here]

theorem lookup_define
    (written : overlay'.methods = update overlay.methods id ((m, body) :: overlay.methods id))
    {id' : ClassId} {m' : Name} (given : ((overlay.methods id').lookup m').isSome = true) :
    ((overlay'.methods id').lookup m').isSome = true := by
  rw [written]
  by_cases here : id' = id
  · subst here
    rw [update_self, lookup_cons]
    cases m' == m with
    | true => rfl
    | false => exact given
  · rw [update_of_ne here]
    exact given

/-- A definition takes from a chain what was answered in it only where it answers ahead. -/
theorem Retired.define {registry : Registry Body} {c id : ClassId} {body : Body}
    {overlay after : Overlay Body} (keeps : KeepsChains registry c)
    (retired : Retired registry c m overlay)
    (written : after.methods = update overlay.methods id ((m, body) :: overlay.methods id))
    (removed : ∀ h, after.removed h m =
      if h = id then false else overlay.removed h m || isHost registry overlay id m h) :
    Retired registry c m after := by
  have given : ((after.methods id).lookup m).isSome = true := by
    rw [written, update_self, lookup_cons_self]
    rfl
  have other : ∀ h, h ≠ id → ownMethod registry after h m = ownMethod registry overlay h m :=
    fun h differs => by rw [ownMethod_define registry written, if_neg fun both => differs both.1]
  have passed : ∀ {before : List ClassId}, id ∉ before →
      (∀ a ∈ before, Passed registry overlay m a) →
      ∀ a ∈ before, Passed registry after m a := by
    intro before absent clear a mem
    have differs : a ≠ id := fun same => absent (same ▸ mem)
    rw [Passed, removed, if_neg differs, other a differs, Bool.or_eq_true]
    exact (clear a mem).imp_left .inl
  constructor
  · intro before h rest chain gone
    have differs : h ≠ id := fun same => by rw [removed, if_pos same] at gone; exact nomatch gone
    rw [removed, if_neg differs] at gone
    rw [other h differs]
    cases old : overlay.removed h m with
    | true =>
      exact (retired.behind before h rest chain old).imp_right fun ⟨mid, mem, had⟩ =>
        ⟨mid, mem, lookup_define written had⟩
    | false =>
      rw [old, Bool.false_or] at gone
      by_cases defined : ownMethod registry overlay h m = none
      · exact .inl defined
      · exact .inr ⟨id, mem_before_of_isHost keeps gone differs old defined chain, given⟩
  · intro gone
    have differs : c ≠ id := fun same => by rw [removed, if_pos same] at gone; exact nomatch gone
    rw [removed, if_neg differs] at gone
    -- The class that answered, or the module that is defined now, with nothing else ahead of it.
    have first : ∃ before w rest, registry.ancestors c = before ++ w :: rest ∧
        overlay.removed w m = false ∧ (ownMethod registry overlay w m).isSome = true ∧
        (w = id ∨ ((overlay.methods w).lookup m).isSome = true) ∧
        ∀ a ∈ before, Passed registry overlay m a := by
      cases old : overlay.removed c m with
      | true =>
        obtain ⟨before, w, rest, chain, kept, had, clear⟩ := retired.answered old
        have defined : (ownMethod registry overlay w m).isSome = true := by
          rw [ownMethod, isSome_or, had, Bool.true_or]
        exact ⟨before, w, rest, chain, kept, defined, .inr had, clear⟩
      | false =>
        rw [old, Bool.false_or] at gone
        unfold isHost at gone
        simp only [Bool.and_eq_true, beq_iff_eq] at gone
        obtain ⟨before, rest, chain, kept, defined, clear⟩ := scanOwner_eq_some gone.2
        exact ⟨before, id, rest, chain, kept, defined, .inl rfl, clear⟩
    obtain ⟨before, w, rest, chain, kept, defined, had, clear⟩ := first
    by_cases inside : id ∈ before
    · obtain ⟨front, back, rfl, absent⟩ := eq_append_cons_of_mem inside
      refine ⟨front, id, back ++ w :: rest, by rw [chain, append_assoc]; rfl, ?_, given, ?_⟩
      · rw [removed, if_pos rfl]
      · exact passed absent fun a mem => clear a (mem_append_left _ mem)
    · refine ⟨before, w, rest, chain, ?_, ?_, passed inside clear⟩
      · by_cases same : w = id
        · rw [removed, if_pos same]
        · rw [removed, if_neg same, kept, Bool.false_or]
          by_contra host
          exact inside (mem_before_of_isHost keeps (eq_true_of_ne_false host) same kept
            (isSome_iff_ne_none.mp defined) chain)
      · rcases had with rfl | had
        · exact given
        · exact lookup_define written had

theorem Retired.exec {registry : Registry Body} {c : ClassId} {overlay : Overlay Body}
    (keeps : KeepsChains registry c) (retired : Retired registry c m overlay)
    (event : Event Body) : Retired registry c m (exec registry overlay event) := by
  cases event with
  | defSingleton o m' body =>
    rcases exec_defSingleton registry overlay o m' body with ⟨-, same⟩ | ⟨-, same⟩
    · rw [same]
      exact retired
    · rw [same]
      exact ⟨retired.behind, retired.answered⟩
  | extend o mid =>
    rcases exec_extend registry overlay o mid with same | ⟨-, -, same⟩
    · rw [same]
      exact retired
    · rw [same]
      exact ⟨retired.behind, retired.answered⟩
  | define id m' body =>
    rcases exec_define registry overlay id m' body with ⟨-, same⟩ | ⟨-, same⟩
    · rw [same]
      exact retired
    · generalize Singletons.exec registry overlay (.define id m' body) = after at same
      have written : after.methods =
          update overlay.methods id ((m', body) :: overlay.methods id) := by rw [same]
      by_cases named : m = m'
      · subst named
        exact retired.define keeps written fun h => by rw [same]; exact if_pos rfl
      · have kept : ∀ h, after.removed h m = overlay.removed h m := fun h => by
          rw [same]
          exact if_neg named
        have other : ∀ h, ownMethod registry after h m = ownMethod registry overlay h m :=
          fun h => by rw [ownMethod_define registry written, if_neg fun both => named both.2]
        have more : ∀ h, ((overlay.methods h).lookup m).isSome = true →
            ((after.methods h).lookup m).isSome = true := fun h => lookup_define written
        constructor
        · intro before h rest chain gone
          rw [other]
          exact (retired.behind before h rest chain (kept h ▸ gone)).imp_right
            fun ⟨mid, mem, had⟩ => ⟨mid, mem, more mid had⟩
        · intro gone
          obtain ⟨before, w, rest, chain, here, had, clear⟩ := retired.answered (kept c ▸ gone)
          refine ⟨before, w, rest, chain, (kept w).trans here, more w had, fun a mem => ?_⟩
          rw [Passed, kept, other]
          exact clear a mem

end Steps

section Copies

variable {Body : Type} (registry : Registry Body) (o : ObjId) (m : Name)

/-- What the last module that an object was extended with and that defines the name defines it
as. -/
def lastCopy (overlay : Overlay Body) : Option Body :=
  (overlay.extended o).reverse.findSome? fun mid => ownMethod registry overlay mid m

def lastSource (overlay : Overlay Body) : Option ClassId :=
  (overlay.extended o).reverse.find? fun mid => (ownMethod registry overlay mid m).isSome

/-- The object's row is its own method or else the last module's, and the record of where it is
from says which. -/
structure Copies (events : List (Event Body)) (overlay : Overlay Body) : Prop where
  row : overlay.singletons o m = (ownDef registry o m events).or (lastCopy registry o m overlay)
  source : overlay.extendedNames o m =
    if (ownDef registry o m events).isSome then none else lastSource registry o m overlay

/-- Nothing comes between an object's name and the rows: an `extend` brings no method under the name
of a singleton method, and a module that the object is extended with is not given a method that it
did not have. -/
def Calm (history : List (Event Body)) (overlay : Overlay Body) : Event Body → Prop
  | .defSingleton _ _ _ => True
  | .extend o' mid => o' = o → registry.frozen o = false → mid ∉ overlay.extended o →
      ownDef registry o m history = none ∨ ownMethod registry overlay mid m = none
  | .define id m' _ => m' = m → registry.classFrozen id = false → id ∈ overlay.extended o →
      (ownMethod registry overlay id m).isSome = true

def CalmRun (events : List (Event Body)) : Prop :=
  ∀ before event after, events = before ++ event :: after →
    Calm registry o m before (run registry before) event

variable {registry o m}

variable {overlay : Overlay Body} {events : List (Event Body)}

theorem calmRun_snoc (events : List (Event Body)) (event : Event Body) :
    CalmRun registry o m (events ++ [event]) ↔
      CalmRun registry o m events ∧ Calm registry o m events (run registry events) event :=
  forall_place_snoc events event

theorem lastCopy_eq (overlay : Overlay Body) :
    lastCopy registry o m overlay =
      (lastSource registry o m overlay).bind fun mid => ownMethod registry overlay mid m := by
  unfold lastCopy lastSource
  induction (overlay.extended o).reverse with
  | nil => rfl
  | cons mid rest ih =>
    rw [List.findSome?_cons, List.find?_cons]
    cases defined : ownMethod registry overlay mid m with
    | none => exact ih
    | some body => simp [defined]

theorem ownDef_snoc (events : List (Event Body)) (event : Event Body) :
    ownDef registry o m (events ++ [event]) =
      match event with
      | .defSingleton o' m' body =>
        if o' = o ∧ m' = m ∧ registry.frozen o = false then some body
        else ownDef registry o m events
      | _ => ownDef registry o m events := by
  unfold ownDef
  rw [foldl_append]
  rfl

variable {overlay after : Overlay Body}

theorem lastSource_congr (extended : after.extended o = overlay.extended o)
    (same : ∀ mid ∈ overlay.extended o, (ownMethod registry after mid m).isSome =
      (ownMethod registry overlay mid m).isSome) :
    lastSource registry o m after = lastSource registry o m overlay := by
  unfold lastSource
  rw [extended, ← List.head?_filter, ← List.head?_filter]
  congr 1
  exact filter_congr fun mid mem => same mid (mem_reverse.mp mem)

variable {events : List (Event Body)}

theorem Copies.unchanged {event : Event Body} (copies : Copies registry o m events overlay)
    (own : ownDef registry o m (events ++ [event]) = ownDef registry o m events)
    (row : after.singletons o m = overlay.singletons o m)
    (source : after.extendedNames o m = overlay.extendedNames o m)
    (extended : after.extended o = overlay.extended o) (methods : ∀ mid ∈ overlay.extended o,
      ownMethod registry after mid m = ownMethod registry overlay mid m) :
    Copies registry o m (events ++ [event]) after := by
  have sameSource : lastSource registry o m after = lastSource registry o m overlay :=
    lastSource_congr extended fun mid mem => by rw [methods mid mem]
  have sameCopy : lastCopy registry o m after = lastCopy registry o m overlay := by
    rw [lastCopy_eq, lastCopy_eq, sameSource]
    cases found : lastSource registry o m overlay with
    | none => rfl
    | some mid => exact methods mid (mem_reverse.mp (mem_of_find?_eq_some found))
  exact ⟨by rw [row, own, sameCopy, copies.row], by rw [source, own, sameSource, copies.source]⟩

theorem update_row_of_ne {α : Type} (table : ObjId → Name → α) {o o' : ObjId} {m m' : Name}
    (other : ¬ (o' = o ∧ m' = m)) (value : α) :
    update table o' (update (table o') m' value) o m = table o m := by
  by_cases here : o = o'
  · subst here
    rw [update_self, update_of_ne fun same => other ⟨rfl, same.symm⟩]
  · rw [update_of_ne here]

section

variable (copies : Copies registry o m events overlay)

include copies

theorem Copies.defSingleton (o' : ObjId) (m' : Name) (body : Body) :
    Copies registry o m (events ++ [.defSingleton o' m' body])
      (exec registry overlay (.defSingleton o' m' body)) := by
  have own : ownDef registry o m (events ++ [.defSingleton o' m' body]) =
      if o' = o ∧ m' = m ∧ registry.frozen o = false then some body
      else ownDef registry o m events := ownDef_snoc events _
  rcases exec_defSingleton registry overlay o' m' body with ⟨frozen, same⟩ | ⟨free, same⟩
  · rw [same]
    refine copies.unchanged ?_ rfl rfl rfl fun _ _ => rfl
    rw [own, if_neg]
    rintro ⟨rfl, -, free⟩
    rw [frozen] at free
    exact nomatch free
  · by_cases here : o' = o ∧ m' = m
    · obtain ⟨rfl, rfl⟩ := here
      rw [if_pos ⟨rfl, rfl, free⟩] at own
      rw [same]
      refine ⟨?_, ?_⟩
      · rw [own]
        simp
      · rw [own]
        simp
    · rw [same]
      refine copies.unchanged ?_ ?_ ?_ rfl fun _ _ => rfl
      · rw [own, if_neg fun all => here ⟨all.1, all.2.1⟩]
      · exact update_row_of_ne overlay.singletons here (some body)
      · exact update_row_of_ne overlay.extendedNames here none

theorem Copies.extend (o' : ObjId) (mid : ClassId)
    (calm : Calm registry o m events overlay (.extend o' mid)) :
    Copies registry o m (events ++ [.extend o' mid]) (exec registry overlay (.extend o' mid)) := by
  have own : ownDef registry o m (events ++ [.extend o' mid]) = ownDef registry o m events :=
    ownDef_snoc events _
  rcases exec_extend registry overlay o' mid with same | ⟨free, new, same⟩
  · rw [same]
    exact copies.unchanged own rfl rfl rfl fun _ _ => rfl
  · rw [same]
    by_cases here : o' = o
    · subst here
      have extended : (extendWith registry overlay o' mid).extended o' =
          overlay.extended o' ++ [mid] := update_self _ _ _
      have methods : ownMethod registry (extendWith registry overlay o' mid) =
          ownMethod registry overlay := rfl
      have source : lastSource registry o' m (extendWith registry overlay o' mid) =
          if (ownMethod registry overlay mid m).isSome then some mid
          else lastSource registry o' m overlay := by
        unfold lastSource
        rw [extended, methods, reverse_append, reverse_singleton, singleton_append, List.find?_cons]
        cases (ownMethod registry overlay mid m).isSome <;> rfl
      have copy : lastCopy registry o' m (extendWith registry overlay o' mid) =
          (ownMethod registry overlay mid m).or (lastCopy registry o' m overlay) := by
        unfold lastCopy
        rw [extended, methods, reverse_append, reverse_singleton, singleton_append,
          List.findSome?_cons]
        cases ownMethod registry overlay mid m <;> rfl
      refine ⟨?_, ?_⟩
      · rw [extendWith_row, copies.row, own, copy]
        rcases calm rfl free new with undefined | missing
        · rw [undefined, none_or, none_or]
        · rw [missing, none_or, none_or]
      · rw [extendWith_source, copies.source, own, source]
        rcases calm rfl free new with undefined | missing
        · rw [undefined]
          rfl
        · rw [missing]
          rfl
    · have other : o ≠ o' := fun same => here same.symm
      refine copies.unchanged own ?_ ?_ ?_ fun _ _ => rfl
      · change update overlay.singletons o' _ o m = _
        rw [update_of_ne other]
      · change update overlay.extendedNames o' _ o m = _
        rw [update_of_ne other]
      · change update overlay.extended o' _ o = _
        rw [update_of_ne other]

theorem Copies.define (id : ClassId) (m' : Name) (body : Body)
    (calm : Calm registry o m events overlay (.define id m' body)) :
    Copies registry o m (events ++ [.define id m' body])
      (exec registry overlay (.define id m' body)) := by
  have own : ownDef registry o m (events ++ [.define id m' body]) = ownDef registry o m events :=
    ownDef_snoc events _
  rcases exec_define registry overlay id m' body with ⟨-, same⟩ | ⟨free, same⟩
  · rw [same]
    exact copies.unchanged own rfl rfl rfl fun _ _ => rfl
  · generalize exec registry overlay (.define id m' body) = after at same
    have written : after.methods =
        update overlay.methods id ((m', body) :: overlay.methods id) := by rw [same]
    have row : after.singletons o m =
        refreshCopies id m' body (overlay.extendedNames o) (overlay.singletons o) m := by rw [same]
    have source : after.extendedNames o m = overlay.extendedNames o m := by rw [same]
    have extended : after.extended o = overlay.extended o := by rw [same]
    unfold refreshCopies at row
    by_cases named : m' = m
    · subst named
      have sources : lastSource registry o m' after = lastSource registry o m' overlay := by
        refine lastSource_congr extended fun mid mem => ?_
        rw [ownMethod_define registry written]
        split
        · rename_i both
          obtain ⟨rfl, -⟩ := both
          exact (calm rfl free mem).symm
        · rfl
      refine ⟨?_, by rw [source, copies.source, own, sources]⟩
      rw [row, own]
      cases defined : ownDef registry o m' events with
      | some mine =>
        have unrecorded := copies.source
        rw [defined] at unrecorded
        rw [if_neg (by rw [unrecorded]; simp), copies.row, defined]
        rfl
      | none =>
        have recorded : overlay.extendedNames o m' = lastSource registry o m' overlay := by
          rw [copies.source, defined]
          rfl
        rw [recorded, lastCopy_eq, sources]
        by_cases refreshed : lastSource registry o m' overlay = some id
        · rw [refreshed]
          simp [ownMethod_define registry written]
        · rw [if_neg refreshed, copies.row, defined, lastCopy_eq]
          cases found : lastSource registry o m' overlay with
          | none => rfl
          | some mid =>
            have differs : mid ≠ id := fun same => refreshed (by rw [found, same])
            simp [ownMethod_define registry written, differs]
    · refine copies.unchanged own ?_ source extended fun mid _ => ?_
      · rw [row]
        split
        · exact update_of_ne (fun same => named same.symm) _ _
        · rfl
      · rw [ownMethod_define registry written, if_neg fun both => named both.2.symm]

theorem Copies.exec (event : Event Body) (calm : Calm registry o m events overlay event) :
    Copies registry o m (events ++ [event]) (exec registry overlay event) := by
  cases event with
  | defSingleton o' m' body => exact copies.defSingleton o' m' body
  | extend o' mid => exact copies.extend o' mid calm
  | define id m' body => exact copies.define id m' body calm

end

/-- After any program the chain of a class answers what its classes gave up. -/
theorem retired_run {c : ClassId} (keeps : KeepsChains registry c) (events : List (Event Body)) :
    Retired registry c m (run registry events) := by
  induction events using List.reverseRecOn with
  | nil => exact ⟨fun _ _ _ _ gone => (nomatch gone), fun gone => (nomatch gone)⟩
  | append_singleton events event ih =>
    unfold run at *
    rw [foldl_append]
    exact ih.exec keeps event

/-- After any calm program the object's row is its own method or else the last module's. -/
theorem copies_run (calm : CalmRun registry o m events) :
    Copies registry o m events (run registry events) := by
  induction events using List.reverseRecOn with
  | nil => exact ⟨rfl, rfl⟩
  | append_singleton events event ih =>
    obtain ⟨before, last⟩ := (calmRun_snoc events event).mp calm
    have run_snoc : run registry (events ++ [event]) =
        Singletons.exec registry (run registry events) event := foldl_append
    rw [run_snoc]
    exact (ih before).exec event last

end Copies

/-- What the chain of every module that an object is extended with defines first under a name is
what the module itself defines. -/
def Plain {Body : Type} (registry : Registry Body) (overlay : Overlay Body) (o : ObjId) (m : Name) :
    Prop :=
  ∀ mid ∈ overlay.extended o, firstOf registry overlay m (registry.ancestors mid) =
    ownMethod registry overlay mid m

theorem firstOf_singletonSuperChain {Body : Type} {registry : Registry Body}
    {overlay : Overlay Body} {o : ObjId} (plain : Plain registry overlay o m) :
    firstOf registry overlay m (singletonSuperChain registry overlay o) =
      (lastCopy registry o m overlay).or
        (firstOf registry overlay m (registry.ancestors (registry.classId o))) := by
  have modules : ((overlay.extended o).reverse.flatMap registry.ancestors).findSome?
      (fun id => ownMethod registry overlay id m) = lastCopy registry o m overlay := by
    unfold lastCopy
    have each : ∀ mid ∈ (overlay.extended o).reverse,
        (registry.ancestors mid).findSome? (fun id => ownMethod registry overlay id m) =
          ownMethod registry overlay mid m :=
      fun mid mem => plain mid (mem_reverse.mp mem)
    generalize (overlay.extended o).reverse = modules at each ⊢
    induction modules with
    | nil => rfl
    | cons mid rest ih =>
      rw [flatMap_cons, List.findSome?_append, each mid mem_cons_self,
        ih fun other mem => each other (mem_cons_of_mem mid mem), List.findSome?_cons]
      cases ownMethod registry overlay mid m <;> rfl
  unfold firstOf singletonSuperChain
  rw [findSome?_addAll, findSome?_addAll, modules]
  rfl

/-- After a calm program that leaves no other module of an extended module's chain in front, an
object whose class keeps the chains of its modules runs the first of its singleton methods and its
singleton's chain. -/
theorem dispatch_eq_expected {Body : Type} (registry : Registry Body) (events : List (Event Body))
    (o : ObjId) (m : Name) (keeps : KeepsChains registry (registry.classId o))
    (calm : CalmRun registry o m events) (plain : Plain registry (run registry events) o m) :
    dispatch registry (run registry events) o m = expected registry events o m := by
  have copies := copies_run calm
  have chain := firstOf_singletonSuperChain plain
  unfold expected
  rw [chain, ← Option.or_assoc, ← copies.row]
  cases row : (run registry events).singletons o m with
  | none => exact dispatch_of_no_row keeps (retired_run keeps events) row
  | some body =>
    unfold dispatch resolveDynamic
    rw [row]
    rfl

/-- `class K`, `module M; def m`, `module N; def n` and `module L; include N`, in this order, with
one object, of class `K`. -/
def sampleRegistry : Registry Nat where
  ancestors id := if id = 3 then [3, 2] else [id]
  isModule id := id != 0
  own
    | 1 => [("m", 10)]
    | 2 => [("n", 20)]
    | _ => []
  reachable _ := true
  classFrozen _ := false
  classId _ := 0
  frozen _ := false
  self h := by
    split
    · rename_i same
      rw [same]
      decide
    · exact mem_singleton_self h

/-- An `extend` replaces the object's own `m`. A method of a module that the extended one includes is
not found, and neither is a method that the extended module is given later. -/
theorem extend_replaces_singleton :
    (dispatch sampleRegistry (run sampleRegistry [.defSingleton 0 "m" 1, .extend 0 1]) 0 "m" =
        some 10 ∧
      expected sampleRegistry [.defSingleton 0 "m" 1, .extend 0 1] 0 "m" = some 1) ∧
    (dispatch sampleRegistry (run sampleRegistry [.extend 0 3]) 0 "n" = none ∧
      expected sampleRegistry [.extend 0 3] 0 "n" = some 20) ∧
    (dispatch sampleRegistry (run sampleRegistry [.extend 0 1, .define 1 "n" 2]) 0 "n" = none ∧
      expected sampleRegistry [.extend 0 1, .define 1 "n" 2] 0 "n" = some 2) := by decide

/-- An object is extended and given a singleton method, and the module's method is defined again. -/
def extendThenDef : List (Event Nat) := [.extend 0 1, .defSingleton 0 "m" 1, .define 1 "m" 11]

/-- The object keeps its singleton method. -/
theorem dispatch_eq_expected_later :
    KeepsChains sampleRegistry 0 ∧ CalmRun sampleRegistry 0 "m" extendThenDef ∧
      Plain sampleRegistry (run sampleRegistry extendThenDef) 0 "m" ∧
      dispatch sampleRegistry (run sampleRegistry extendThenDef) 0 "m" = some 1 ∧
      dispatch sampleRegistry (run sampleRegistry extendThenDef) 0 "m" =
        expected sampleRegistry extendThenDef 0 "m" := by
  have calm : CalmRun sampleRegistry 0 "m" extendThenDef := by
    have start : CalmRun sampleRegistry 0 "m" [] := fun before event after split => by
      simp at split
    have first := (calmRun_snoc [] (.extend 0 1)).mpr ⟨start, fun _ _ _ => Or.inl rfl⟩
    have second := (calmRun_snoc _ (.defSingleton 0 "m" 1)).mpr ⟨first, True.intro⟩
    exact (calmRun_snoc _ (.define 1 "m" 11)).mpr ⟨second, fun _ _ _ => by decide⟩
  have plain : Plain sampleRegistry (run sampleRegistry extendThenDef) 0 "m" := by
    unfold Plain
    decide
  have keeps : KeepsChains sampleRegistry 0 := by
    refine ⟨by decide, fun h before' after' own before after chain => ?_⟩
    -- The chain is the class alone, so nothing is ahead of it.
    have alone : ∀ x y : List ClassId, [0] = x ++ h :: y → x = [] ∧ h = 0 := by
      intro x y split
      cases x with
      | nil => exact ⟨rfl, (cons.inj split).1.symm⟩
      | cons _ x => simp at split
    obtain ⟨-, rfl⟩ := alone before after chain
    rw [(alone before' after' own).1]
    exact nil_subset before
  exact ⟨keeps, calm, plain, by decide,
    dispatch_eq_expected sampleRegistry _ 0 "m" keeps calm plain⟩

end Zeo.Meta.Singletons
