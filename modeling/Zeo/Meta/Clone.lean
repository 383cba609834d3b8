import Zeo.Analyze.Mro

/-!
# The singleton of a clone

What one object answers apart from its class is spread over tables that are keyed by the object's
identity: its singleton rows, their visibility, the names it has undefined and the modules it was
extended with. A clone takes the tables over, except the undefined names. The result says which
objects a clone answers for.
-/

namespace Zeo.Meta.Clone

open Zeo.Analyze

abbrev Name := String

abbrev ObjId := Nat

/-- `MethodVisibility`. -/
inductive Visibility where
  | isPublic
  | isPrivate
  | isProtected
deriving DecidableEq, Repr

/-- The classes and modules, which no step here changes, and what the objects are. `Body` is a
method's implementation. -/
structure World (Body : Type) where
  classId : ObjId → ClassId
  /-- Whether it is a `RubyValue::Object`. Any other heap value has its methods called with the
  value itself. -/
  isObject : ObjId → Bool
  frozen : ObjId → Bool
  /-- The walk of `resolve_dynamic` along the chain of a class. -/
  overlayMethod : ClassId → Name → Option Body
  /-- The compiled rows and the tables of a class, which `send_in` asks last. -/
  compiledMethod : ClassId → Name → Option Body
  /-- What `send_value` finds along the chain of a class. -/
  valueMethod : ClassId → Name → Option Body
  /-- Whether `responds_to` finds a name along the chain of a class. -/
  responds : ClassId → Name → Bool
  /-- `instance_method_visibility`. -/
  methodVisibility : ClassId → Name → Option Visibility
  isModule : ClassId → Bool
  /-- The methods that an `extend` with a module copies. -/
  moduleMethods : ClassId → List (Name × Body)

/-- What the identity-keyed maps of the overlay hold for one object. -/
structure Entry (Body : Type) where
  singletons : List (Name × Body) := []
  valueSingletons : List (Name × Body) := []
  singletonVis : List (Name × Visibility) := []
  singletonUndefs : List Name := []
  /-- The module that an `extend` copied a row from. -/
  extendedNames : List (Name × ClassId) := []
  extended : List ClassId := []

/-- The maps, and `is_live`: whether anything was defined at run time. -/
structure Tables (Body : Type) where
  entries : ObjId → Entry Body
  live : Bool

inductive Refusal where
  | frozenObject
  /-- The argument of `extend` is no module. -/
  | notModule
  | undefinedMethod (m : Name)
deriving DecidableEq, Repr

inductive Event (Body : Type) where
  /-- `def o.m`. -/
  | defSingleton (o : ObjId) (m : Name) (body : Body)
  /-- `private :m` and its like in `class << o`. -/
  | setVisibility (o : ObjId) (m : Name) (visibility : Visibility)
  /-- `undef m` in `class << o`. -/
  | undefSingleton (o : ObjId) (m : Name)
  /-- `o.extend(mid)`. -/
  | extend (o : ObjId) (mid : ClassId)

def Event.receiver {Body : Type} : Event Body → ObjId
  | .defSingleton o _ _ => o
  | .setVisibility o _ _ => o
  | .undefSingleton o _ => o
  | .extend o _ => o

variable {α : Type}

def put (table : List (Name × α)) (m : Name) (value : α) : List (Name × α) :=
  (m, value) :: table.filter fun row => row.1 != m

def drop (table : List (Name × α)) (m : Name) : List (Name × α) :=
  table.filter fun row => row.1 != m

section Code

variable {Body : Type} (world : World Body)

/-- `object_has_singleton_method`. -/
def Entry.hasSingletonMethod (entry : Entry Body) (m : Name) : Bool :=
  (entry.singletons.lookup m).isSome || (entry.valueSingletons.lookup m).isSome

/-- Stores a row in the table that the receiver's kind uses. -/
def Entry.setRow (o : ObjId) (entry : Entry Body) (m : Name) (body : Body) : Entry Body :=
  if world.isObject o then { entry with singletons := put entry.singletons m body }
  else { entry with valueSingletons := put entry.valueSingletons m body }

/-- `carry_module_visibility` for one name. -/
def carryVisibility (mid : ClassId) (marks : List (Name × Visibility)) (m : Name) :
    List (Name × Visibility) :=
  match world.methodVisibility mid m with
  | none => drop marks m
  | some .isPublic => drop marks m
  | some visibility => put marks m visibility

/-- The mixing of `extend_object_default`. -/
def Entry.extendWith (o : ObjId) (entry : Entry Body) (mid : ClassId) : Entry Body :=
  let rows := world.moduleMethods mid
  { rows.foldl (fun entry row => entry.setRow world o row.1 row.2) entry with
    extendedNames := rows.foldl (fun names row => put names row.1 mid) entry.extendedNames
    singletonVis :=
      rows.foldl (fun marks row => carryVisibility world mid marks row.1) entry.singletonVis
    extended := entry.extended ++ [mid] }

variable (tables : Tables Body)

/-- `responds_to_value` with private methods. -/
def respondsToValue (o : ObjId) (m : Name) : Bool :=
  let entry := tables.entries o
  if tables.live && entry.singletonUndefs.contains m then false
  else if tables.live && entry.hasSingletonMethod m then true
  else world.responds (world.classId o) m

/-- What `runtime_define_singleton_method` writes. Only the arm of an object clears the mark. -/
def defineSingletonMethod (o : ObjId) (m : Name) (body : Body) :
    Except Refusal (Option (Entry Body)) :=
  let entry := tables.entries o
  if world.frozen o then .error .frozenObject
  else .ok (some { entry.setRow world o m body with
    singletonVis := if world.isObject o then drop entry.singletonVis m else entry.singletonVis
    extendedNames := drop entry.extendedNames m })

/-- What `set_singleton_visibility` writes, behind the check that the object answers the name. -/
def setSingletonVisibility (o : ObjId) (m : Name) (visibility : Visibility) :
    Except Refusal (Option (Entry Body)) :=
  let entry := tables.entries o
  if respondsToValue world tables o m = false then .error (.undefinedMethod m)
  else .ok (some { entry with singletonVis := put entry.singletonVis m visibility })

/-- What `runtime_undef_singleton_method` writes. -/
def undefSingletonMethod (o : ObjId) (m : Name) : Except Refusal (Option (Entry Body)) :=
  let entry := tables.entries o
  if respondsToValue world tables o m = false then .error (.undefinedMethod m)
  else .ok (some { entry with
    singletons := drop entry.singletons m
    valueSingletons := drop entry.valueSingletons m
    extendedNames := drop entry.extendedNames m
    singletonUndefs := m :: entry.singletonUndefs })

/-- What `extend_object_default` writes, behind `check_module_arg`. -/
def extendObject (o : ObjId) (mid : ClassId) : Except Refusal (Option (Entry Body)) :=
  if world.isModule mid = false then .error .notModule
  else if mid ∈ (tables.entries o).extended then .ok none
  else if world.frozen o then .error .frozenObject
  else .ok (some ((tables.entries o).extendWith world o mid))

def step : Event Body → Except Refusal (Option (Entry Body))
  | .defSingleton o m body => defineSingletonMethod world tables o m body
  | .setVisibility o m visibility => setSingletonVisibility world tables o m visibility
  | .undefSingleton o m => undefSingletonMethod world tables o m
  | .extend o mid => extendObject world tables o mid

def exec (event : Event Body) : Tables Body :=
  match step world tables event with
  | .ok (some entry) => ⟨Function.update tables.entries event.receiver entry, true⟩
  | _ => tables

def run (events : List (Event Body)) : Tables Body :=
  events.foldl (exec world) ⟨fun _ => {}, false⟩

/-- The method that a send to an object runs. The object's undefined names are asked after the rows
that were given to its class at run time, and before its compiled ones. A heap value that is no
object does not ask for them. -/
def answer (o : ObjId) (m : Name) : Option Body :=
  let entry := tables.entries o
  if world.isObject o then
    (if tables.live then
        (entry.singletons.lookup m).or (world.overlayMethod (world.classId o) m)
      else none).or
      (if tables.live && entry.singletonUndefs.contains m then none
        else world.compiledMethod (world.classId o) m)
  else
    (if tables.live then entry.valueSingletons.lookup m else none).or
      (world.valueMethod (world.classId o) m)

/-- The visibility that `explicit_call_barrier` finds. -/
def visibility (o : ObjId) (m : Name) : Option Visibility :=
  let entry := tables.entries o
  if tables.live && entry.hasSingletonMethod m then
    some ((entry.singletonVis.lookup m).getD .isPublic)
  else world.methodVisibility (world.classId o) m

/-- One table of `copy_value_singletons`: an empty one is not copied. -/
def copyTable (source copy : List α) : List α := if source.isEmpty then copy else source

def copyValueSingletons (source copy : ObjId) : Tables Body :=
  if tables.live = false then tables
  else
    let old := tables.entries source
    let new := tables.entries copy
    ⟨Function.update tables.entries copy
      { new with
        singletons := copyTable old.singletons new.singletons
        valueSingletons := copyTable old.valueSingletons new.valueSingletons
        singletonVis := copyTable old.singletonVis new.singletonVis
        extendedNames := copyTable old.extendedNames new.extendedNames
        extended := copyTable old.extended new.extended }, true⟩

end Code

section Runs

variable {Body : Type} (world : World Body)

/-- A step does nothing, or writes the entry of its receiver and makes the overlay live. -/
theorem exec_cases (tables : Tables Body) (event : Event Body) :
    exec world tables event = tables ∨ ∃ entry, exec world tables event =
      ⟨Function.update tables.entries event.receiver entry, true⟩ := by
  unfold exec
  split
  · exact .inr ⟨_, rfl⟩
  · exact .inl rfl

/-- After a run an object that no step was on has an empty entry, and so has every object while the
overlay is not live. -/
theorem run_entries {events : List (Event Body)} {c : ObjId}
    (apart : (run world events).live = false ∨ ∀ event ∈ events, event.receiver ≠ c) :
    (run world events).entries c = {} := by
  unfold run at apart ⊢
  induction events using List.reverseRecOn with
  | nil => rfl
  | append_singleton events event ih =>
    rw [List.foldl_append] at apart ⊢
    change (exec world _ event).entries c = {}
    rcases exec_cases world (events.foldl (exec world) ⟨fun _ => {}, false⟩) event with
      same | ⟨entry, written⟩
    · rw [same]
      apply ih
      rcases apart with dormant | apart
      · left
        exact (congrArg Tables.live same).symm.trans dormant
      · right
        exact fun earlier mem => apart earlier (List.mem_append_left _ mem)
    · rw [written]
      rcases apart with dormant | apart
      · have live := (congrArg Tables.live written).symm.trans dormant
        exact nomatch live
      · have other : c ≠ event.receiver := (apart event (by simp)).symm
        dsimp only
        rw [Function.update_of_ne other]
        apply ih
        right
        exact fun earlier mem => apart earlier (List.mem_append_left _ mem)

theorem copyTable_nil (source : List α) : copyTable source [] = source := by
  cases source <;> rfl

end Runs

/-- A clone answers and refuses every name as its source does, with the same visibility, exactly
where each name that the source has undefined for itself has a singleton row again, or is answered
by a row its class was given at run time, or is not answered by its class. A heap value that is no
object has such a clone always. -/
theorem clone_answers_iff {Body : Type} (world : World Body) (events : List (Event Body))
    (o c : ObjId) (apart : o ≠ c) (unused : ∀ event ∈ events, event.receiver ≠ c)
    (sameClass : world.classId c = world.classId o)
    (sameKind : world.isObject c = world.isObject o) :
    let entry := (run world events).entries o
    let after := copyValueSingletons (run world events) o c
    (∀ m, answer world after c m = answer world after o m ∧
        visibility world after c m = visibility world after o m) ↔
      (world.isObject o = true → ∀ m ∈ entry.singletonUndefs, entry.singletons.lookup m = none →
        world.overlayMethod (world.classId o) m = none →
        world.compiledMethod (world.classId o) m = none) := by
  intro entry after
  have fresh := run_entries world (Or.inr unused)
  cases live : (run world events).live with
  | false =>
    have nothing : entry = {} := run_entries world (Or.inl live)
    have same : after = run world events := if_pos live
    simp [same, nothing, answer, visibility, live, sameClass, sameKind]
  | true =>
    have alive : after.live = true := by
      change (copyValueSingletons (run world events) o c).live = true
      simp [copyValueSingletons, live]
    have source : after.entries o = entry := by
      change (copyValueSingletons (run world events) o c).entries o = entry
      simp [copyValueSingletons, live, apart, entry]
    have copy : after.entries c = { entry with singletonUndefs := [] } := by
      change (copyValueSingletons (run world events) o c).entries c = _
      simp [copyValueSingletons, live, fresh, copyTable_nil, entry]
    have shown : ∀ m, visibility world after c m = visibility world after o m := by
      intro m
      unfold visibility
      rw [source, copy, sameClass]
      rfl
    simp only [shown]
    cases object : world.isObject o with
    | false => simp [answer, source, copy, sameKind, sameClass, object]
    | true =>
      simp only [true_implies]
      apply forall_congr'
      intro m
      -- The two differ in the compiled rows only, and only under an undefined name.
      by_cases undefined : m ∈ entry.singletonUndefs
      · cases row : entry.singletons.lookup m <;>
          cases given : world.overlayMethod (world.classId o) m <;>
          simp [answer, source, copy, sameKind, sameClass, object, alive, row, given]
      · simp [answer, source, copy, sameKind, sameClass, undefined]

/-- Object 0 of class 0, whose compiled method `close` it can undefine, and object 1 for its
clone. -/
def closable : World Nat where
  classId := fun _ => 0
  isObject := fun _ => true
  frozen := fun _ => false
  overlayMethod := fun _ _ => none
  compiledMethod := fun _ m => if m = "close" then some 0 else none
  valueMethod := fun _ _ => none
  responds := fun _ m => m = "close"
  methodVisibility := fun _ m => if m = "close" then some .isPublic else none
  isModule := fun id => id == 1
  moduleMethods := fun _ => [("open", 1)]

def extendedRun : List (Event Nat) :=
  [.defSingleton 0 "m" 2, .setVisibility 0 "m" .isPrivate, .extend 0 1]

/-- A clone of an object with a private singleton method and an extension answers as the object
does. -/
theorem clone_answers_extended :
    answer closable (copyValueSingletons (run closable extendedRun) 0 1) 1 "m" =
        answer closable (copyValueSingletons (run closable extendedRun) 0 1) 0 "m" ∧
      visibility closable (copyValueSingletons (run closable extendedRun) 0 1) 1 "m" =
        visibility closable (copyValueSingletons (run closable extendedRun) 0 1) 0 "m" :=
  (clone_answers_iff closable extendedRun 0 1 (by decide) (by decide) rfl rfl).mpr (by
    intro _ m member
    exact nomatch member) "m"

/-- An object undefines the compiled method of its class for itself. It refuses the name, and its
clone answers it. -/
theorem clone_answers_undefined :
    let after := copyValueSingletons (run closable [.undefSingleton 0 "close"]) 0 1
    answer closable after 0 "close" = none ∧ answer closable after 1 "close" = some 0 := by
  decide +kernel

end Zeo.Meta.Clone
