import Zeo.Analyze.Mro
import Zeo.Lib.Collect

/-!
# Materialization of methods and slots

Once the chains are known, every class gets the table of the methods it answers to and the list of
its instance-variable slots. Methods are looked for nearest first, slots are laid out furthest
first, and the members of a compiled `Struct` are kept apart from the slots.
-/

namespace Zeo.Analyze

open Zeo.Lib List

inductive Visibility where
  | isPublic
  | isPrivate
  | isProtected
deriving DecidableEq, Repr

/-- What materialization reads of a `Scope`, the one definition of a method. -/
structure Scope where
  id : Nat
  name : String
  /-- The instance variables that the body and the parameter defaults mention, in walk order. -/
  ivars : List String
  /-- Whether the `def` stands under a guard that is decided at run time. -/
  runtimeConditional : Bool
  /-- The visibility the `def` was made with. -/
  visibility : Visibility
  /-- Whether the body is a bootstrap one that the runtime serves natively. -/
  nativeDefault : Bool
deriving DecidableEq, Repr

/-- What materialization reads of a `ClassInfo`, the chain apart. -/
structure ClassDecl where
  isModule : Bool
  /-- Whether the runtime provides it. `Object` does not count. -/
  isBuiltin : Bool
  ownMethods : List Scope
  /-- The names that an `undef` of the class body leaves undefined. -/
  undefined : List String
  visibilityOverrides : List (String × Visibility)
  /-- The members of a compiled `Struct`. -/
  hiddenIvars : List String
  /-- The slot list of the manifest, for a class of a compiled package. -/
  importedIvars : Option (List String)

def objectClass : ClassId := 0

/-- What materialization reads of the `Compiler`. -/
structure Compiler where
  table : ClassTable
  /-- The class bodies, as `Compiler::class` reads them. -/
  decl : ClassId → ClassDecl
  /-- The instance methods of `builtin_surface::surface_for`. -/
  surfaceFor : ClassId → List String
  mixinsAreModules : ∀ c < table.classes.length, ∀ m ∈ (table.info c).mixinOrder,
    (decl m.1).isModule = true
  modulesHaveNoParent : ∀ c < table.classes.length, (decl c).isModule = true →
    (table.info c).parent = none
  parentsAreClasses : ∀ c < table.classes.length, ∀ p ∈ (table.info c).parent,
    (decl p).isModule = false
  /-- No package compiled what the runtime provides. -/
  providedNotImported : ∀ c < table.classes.length,
    ((decl c).isBuiltin || c == objectClass) = true → (decl c).importedIvars = none

structure MethodEntry where
  name : String
  definition : Nat
  owner : ClassId
  visibility : Visibility
  nativeDefault : Bool
  /-- Whether the entry only declares a visibility again. -/
  zsuper : Bool
deriving DecidableEq, Repr

/-- What materialization writes into a `ClassInfo`. -/
structure ClassState where
  methods : List MethodEntry
  ivars : List String
  hiddenIvars : List String

abbrev Classes := ClassId → ClassState

def entryFor (scope : Scope) (owner : ClassId) : MethodEntry :=
  ⟨scope.name, scope.id, owner, scope.visibility, scope.nativeDefault, false⟩

/-- The walk of `materialize_methods` over the chain. -/
structure Walk where
  seen : List String
  materialized : List MethodEntry
  /-- The visibilities declared again so far, the nearest first. -/
  rescoped : List (String × Visibility)

namespace Compiler

variable (compiler : Compiler)

/-- The `ancestors` of a class. -/
def ancestors (c : ClassId) : List ClassId := computeAncestors compiler.table c

def skips (c anc : ClassId) : Bool := (compiler.decl c).isBuiltin && anc == objectClass

def visitMethod (c : ClassId) (walk : Walk) (scope : Scope) : Walk :=
  if scope.runtimeConditional then walk
  else if scope.name ∈ walk.seen then walk
  else
    let claimed := { walk with seen := scope.name :: walk.seen }
    if scope.name ∈ (compiler.decl c).undefined then claimed
    else
      let entry := entryFor scope c
      let entry := match walk.rescoped.lookup scope.name with
        | some visibility => { entry with visibility }
        | none => entry
      { claimed with materialized := walk.materialized ++ [entry] }

/-- One ancestor. Its native rows claim their names after its own methods. -/
def visitAncestor (c : ClassId) (walk : Walk) (anc : ClassId) : Walk :=
  let walk := { walk with
    rescoped := walk.rescoped ++ (compiler.decl anc).visibilityOverrides }
  if compiler.skips c anc then walk
  else
    let walk := (compiler.decl anc).ownMethods.foldl (compiler.visitMethod c) walk
    { walk with seen := compiler.surfaceFor anc ++ walk.seen }

/-- The method loop of `materialize_methods`. -/
def materializedMethods (c : ClassId) : List MethodEntry :=
  ((compiler.ancestors c).foldl (compiler.visitAncestor c) ⟨[], [], []⟩).materialized

def ownIvars (c : ClassId) : List String :=
  addAll [] ((compiler.decl c).ownMethods.flatMap Scope.ivars)

/-- The names an ancestor contributes to the slots. The list of an imported one is read from the
class table. -/
def contributed (classes : Classes) (anc : ClassId) : List String :=
  if (compiler.decl anc).importedIvars.isSome then (classes anc).ivars
  else compiler.ownIvars anc

/-- The slot loop of `materialize_methods`. -/
def collectIvars (classes : Classes) (c : ClassId) : List String :=
  (compiler.ancestors c).reverse.foldl
    (fun ivars anc =>
      if compiler.skips c anc then ivars else addAll ivars (compiler.contributed classes anc))
    []

/-- The members of a class: its own, or those of the nearest ancestor that has any. -/
def inheritHidden (classes : Classes) (c : ClassId) : List String :=
  if (classes c).hiddenIvars.isEmpty then
    (((compiler.ancestors c).drop 1).map fun a => (classes a).hiddenIvars).find?
      (fun hidden => !hidden.isEmpty) |>.getD []
  else (classes c).hiddenIvars

def materializeMethods (classes : Classes) (c : ClassId) : ClassState :=
  let hidden := compiler.inheritHidden classes c
  ⟨compiler.materializedMethods c,
    (compiler.collectIvars classes c).filter (fun name => name ∉ hidden), hidden⟩

/-- The class table before the pass. -/
def initial : Classes := fun c =>
  ⟨[], (compiler.decl c).importedIvars.getD [], (compiler.decl c).hiddenIvars⟩

def materializeClass (classes : Classes) (c : ClassId) : Classes :=
  if (compiler.decl c).isModule then classes
  else Function.update classes c (compiler.materializeMethods classes c)

/-- `materialize`, as far as instance methods and slots go. -/
def materialize : Classes :=
  (List.range compiler.table.classes.length).foldl compiler.materializeClass compiler.initial

end Compiler

/-- `slot_of`: the members come first. -/
def slotOf (classes : Classes) (c : ClassId) (name : String) : Option Nat :=
  ((classes c).hiddenIvars.idxOf? name).or
    (((classes c).ivars.idxOf? name).map ((classes c).hiddenIvars.length + ·))

section Insertion

variable (keep : ClassId → Bool)

theorem filter_mixInto (state : Tracked) {sub : List ClassId} (isPrepend : Bool)
    (none : ∀ m ∈ sub, keep m = false) :
    (mixInto state sub isPrepend).1.filter keep = state.1.filter keep := by
  have step : ∀ (state : Tracked × Nat) m, keep m = false →
      (mixStep isPrepend state m).1.1.filter keep = state.1.1.filter keep := by
    intro state m dropped
    unfold mixStep
    dsimp only
    split
    · rfl
    · exact filter_insertIdx _ _ dropped
  have loop : ∀ (sub : List ClassId) state, (∀ m ∈ sub, keep m = false) →
      (sub.foldl (mixStep isPrepend) state).1.1.filter keep = state.1.1.filter keep := by
    intro sub
    induction sub with
    | nil => exact fun _ _ => rfl
    | cons m sub ih =>
      intro state none
      rw [foldl_cons, ih _ fun x mem => none x (mem_cons_of_mem m mem)]
      exact step state m (none m mem_cons_self)
  exact loop sub _ none

theorem filter_mixAll (start : Tracked) {mixins : List SubChain}
    (none : ∀ mixin ∈ mixins, ∀ m ∈ mixin.1, keep m = false) :
    (mixAll start mixins).1.filter keep = start.1.filter keep := by
  induction mixins using List.reverseRecOn with
  | nil => rfl
  | append_singleton mixins last ih =>
    rw [mixAll_snoc, filter_mixInto keep _ _ (none last (by simp))]
    exact ih fun mixin listed => none mixin (mem_append_left _ listed)

end Insertion

namespace Compiler

variable {compiler : Compiler}

variable {c : ClassId} {d : ClassId}

theorem lt_of_edge (edge : compiler.table.Edge c d) :
    c < compiler.table.classes.length := by
  by_contra past
  unfold ClassTable.Edge ClassTable.info at edge
  rw [List.getElem?_eq_none (Nat.le_of_not_lt past)] at edge
  simp at edge

theorem isModule_of_edge (edge : compiler.table.Edge c d)
    (module : (compiler.decl c).isModule = true) : (compiler.decl d).isModule = true := by
  have here := lt_of_edge edge
  rcases edge with parent | ⟨m, listed, rfl⟩
  · rw [compiler.modulesHaveNoParent c here module] at parent
    exact nomatch parent
  · exact compiler.mixinsAreModules c here m listed

theorem isModule_of_mem_ancestors {x : ClassId} (module : (compiler.decl c).isModule = true)
    (mem : x ∈ compiler.ancestors c) : (compiler.decl x).isModule = true := by
  have reached := reached_of_mem_chainOf _ _ _ mem
  clear mem
  induction reached with
  | refl => exact module
  | tail _ edge ih => exact isModule_of_edge edge ih

variable (compiler)

def isClass (c : ClassId) : Bool := !(compiler.decl c).isModule

def line (c : ClassId) : List ClassId := (compiler.ancestors c).filter compiler.isClass

variable {compiler}

theorem line_eq (acyclic : compiler.table.Acyclic)
    (here : c < compiler.table.classes.length) (isClass : compiler.isClass c = true) :
    compiler.line c =
      c :: ((compiler.table.info c).inherited compiler.ancestors).filter compiler.isClass := by
  have modules : ∀ mixin ∈ (compiler.table.info c).subs compiler.ancestors, ∀ m ∈ mixin.1,
      compiler.isClass m = false := by
    intro mixin listed m mem
    obtain ⟨mixed, order, rfl⟩ := mem_map.mp listed
    have module := isModule_of_mem_ancestors (compiler.mixinsAreModules c here mixed order) mem
    unfold Compiler.isClass
    rw [module]
    rfl
  change (computeAncestors compiler.table c).filter compiler.isClass = _
  rw [computeAncestors_eq acyclic here]
  change (mixAll (c :: (compiler.table.info c).inherited compiler.ancestors, 0)
    ((compiler.table.info c).subs compiler.ancestors)).1.filter compiler.isClass = _
  rw [filter_mixAll _ _ modules, filter_cons_of_pos isClass]

variable {p : ClassId}

theorem isClass_of_parent (parent : (compiler.table.info c).parent = some p) :
    compiler.isClass c = true := by
  have here := lt_of_edge (Or.inl parent)
  unfold isClass
  cases module : (compiler.decl c).isModule with
  | false => rfl
  | true =>
    rw [compiler.modulesHaveNoParent c here module] at parent
    exact nomatch parent

theorem parent_isClass (parent : (compiler.table.info c).parent = some p) :
    compiler.isClass p = true := by
  have here := lt_of_edge (Or.inl parent)
  unfold isClass
  rw [compiler.parentsAreClasses c here p parent]
  rfl

theorem line_of_parent (acyclic : compiler.table.Acyclic)
    (parent : (compiler.table.info c).parent = some p) :
    compiler.line c = c :: compiler.line p := by
  have here := lt_of_edge (Or.inl parent)
  rw [line_eq acyclic here (isClass_of_parent parent)]
  unfold ClassInfo.inherited
  rw [parent]
  rfl

theorem line_of_root (acyclic : compiler.table.Acyclic)
    (here : c < compiler.table.classes.length) (isClass : compiler.isClass c = true)
    (root : (compiler.table.info c).parent = none) : compiler.line c = [c] := by
  rw [line_eq acyclic here isClass]
  unfold ClassInfo.inherited
  rw [root]
  rfl

/-- What holds of a class once it holds of its superclass holds of every class. -/
theorem line_induction (acyclic : compiler.table.Acyclic) {motive : ClassId → Prop}
    (root : ∀ c < compiler.table.classes.length, compiler.isClass c = true →
      (compiler.table.info c).parent = none → motive c)
    (below : ∀ c p, (compiler.table.info c).parent = some p → motive p → motive c)
    (c : ClassId) (here : c < compiler.table.classes.length) (isClass : compiler.isClass c = true) :
    motive c := by
  -- The line gets shorter towards the superclass.
  induction length : (compiler.line c).length generalizing c with
  | zero =>
    rw [line_eq acyclic here isClass] at length
    exact nomatch length
  | succ n ih =>
    cases parent : (compiler.table.info c).parent with
    | none => exact root c here isClass parent
    | some p =>
      rw [line_of_parent acyclic parent] at length
      refine below c p parent (ih p ?_ (parent_isClass parent) (Nat.succ.inj length))
      exact compiler.table.edge_lt (.inl parent)

theorem lt_of_mem_ancestors {x : ClassId} (here : c < compiler.table.classes.length)
    (mem : x ∈ compiler.ancestors c) : x < compiler.table.classes.length := by
  have reached := reached_of_mem_chainOf _ _ _ mem
  induction reached with
  | refl => exact here
  | tail _ edge _ => exact compiler.table.edge_lt edge

end Compiler

/-- `def top; @y; end`, `class Array; def m; @x; end; end`, `class C < Array; end`,
`class P; def p; @a; end; end` and `class Q < P; def q; @a; @b; end; end`, in this order. -/
def reopenedArray : Compiler where
  table := ⟨[⟨none, []⟩, ⟨some 0, []⟩, ⟨some 1, []⟩, ⟨some 0, []⟩, ⟨some 3, []⟩], by decide,
    by decide⟩
  decl
    | 0 => ⟨false, false, [⟨0, "top", ["@y"], false, .isPrivate, false⟩], [], [], [], none⟩
    | 1 => ⟨false, true, [⟨1, "m", ["@x"], false, .isPublic, false⟩], [], [], [], none⟩
    | 3 => ⟨false, false, [⟨2, "p", ["@a"], false, .isPublic, false⟩], [], [], [], none⟩
    | 4 => ⟨false, false, [⟨3, "q", ["@a", "@b"], false, .isPublic, false⟩], [], [], [], none⟩
    | _ => ⟨false, false, [], [], [], [], none⟩
  surfaceFor _ := []
  mixinsAreModules := by decide
  modulesHaveNoParent := by decide
  parentsAreClasses := by decide
  providedNotImported := by decide

end Zeo.Analyze
