import Zeo.Analyze.Mro

/-!
# An undefined class method

An `undef` inside `class << self` leaves a tombstone with the class, and a call of the class method
asks for the nearest tombstone before it asks any table. A class ahead of it that defines the method
again is to end the search. The code asks the other classes only, and asks their tables, which were
filled from the superclasses when the program was compiled.
-/

namespace Zeo.Meta.ClassUndef

open Zeo.Analyze List

abbrev Name := String

/-- A `def`, and whether it stands under a guard that the compiler cannot decide. -/
structure Definition where
  name : Name
  /-- `runtime_conditional`. -/
  conditional : Bool
deriving DecidableEq, Repr

/-- What `materialize_class_methods` reads of a class or module. -/
structure ClassBody where
  parent : Option ClassId
  /-- The `def self.m` of the body. -/
  ownClassMethods : List Definition
  /-- The `def m` of the body. -/
  ownMethods : List Definition
  classMethodPrepends : List ClassId
  extensions : List ClassId
  /-- The names undefined inside `class << self` of the first body. -/
  classUndefined : List Name

structure Program where
  classes : List ClassBody

/-- `Compiler::class`. -/
def Program.body (program : Program) (id : ClassId) : ClassBody :=
  (program.classes[id]?).getD ⟨none, [], [], [], [], []⟩

section Code

variable (program : Program)

/-- The classes that the walk visits: a class and its superclasses, until one is met again. -/
def levels : Nat → List ClassId → ClassId → List ClassId
  | 0, _, _ => []
  | depth + 1, walked, id =>
    if id ∈ walked then []
    else id :: match (program.body id).parent with
      | some parent => levels depth (id :: walked) parent
      | none => []

def contributed (id : ClassId) : List Definition :=
  let unconditional := fun (defs : List Definition) => defs.filter fun d => !d.conditional
  ((program.body id).classMethodPrepends.reverse.flatMap fun m => (program.body m).ownMethods) ++
    unconditional (program.body id).ownClassMethods ++
    (program.body id).extensions.reverse.flatMap fun m => unconditional (program.body m).ownMethods

structure Walk where
  seen : List Name
  materialized : List Name

def claim (undefined : List Name) (walk : Walk) (d : Definition) : Walk :=
  if d.name ∈ walk.seen then walk
  else ⟨walk.seen ++ [d.name],
    if d.name ∈ undefined then walk.materialized else walk.materialized ++ [d.name]⟩

/-- The names that `materialize_class_methods` gives a class. A path of superclasses has no class
twice, so it is not longer than the table. -/
def materializeClassMethods (id : ClassId) : List Name :=
  (((levels program (program.classes.length + 1) [] id).flatMap (contributed program)).foldl
    (claim (program.body id).classUndefined) ⟨[], []⟩).materialized

structure Overlay where
  /-- `ancestors_of_value`. -/
  ancestors : ClassId → List ClassId
  classUndefs : ClassId → Name → Bool
  classMethods : ClassId → Name → Bool
  /-- The copies of the modules that were prepended to its singleton class at run time. -/
  prependedClassMethods : ClassId → Name → Bool

variable (overlay : Overlay)

/-- Whether `overlay_class_method` has a row. -/
def overlayClassMethod (id : ClassId) (name : Name) : Bool :=
  overlay.prependedClassMethods id name || overlay.classMethods id name

def classDefinesOwnClassMethod (id : ClassId) (name : Name) : Bool :=
  overlayClassMethod overlay id name || (materializeClassMethods program id).contains name

def classMethodUndefined (id : ClassId) (name : Name) : Bool :=
  let ancestors := overlay.ancestors id
  match ancestors.findIdx? fun anc => overlay.classUndefs anc name with
  | none => false
  | some tomb => !(ancestors.take tomb).any fun anc =>
      anc != id && classDefinesOwnClassMethod program overlay anc name

/-- Whether a class has a `def self.m` of its own: one that ran, or one it was compiled with. -/
def definesItself (id : ClassId) (name : Name) : Bool :=
  overlay.classMethods id name ||
    ((program.body id).ownClassMethods.contains ⟨name, false⟩ &&
      !(program.body id).classUndefined.contains name)

/-- The classes ahead of the nearest tombstone of a name, if there is one. -/
def Tombstone (id : ClassId) (name : Name) (ahead : List ClassId) : Prop :=
  ∃ tomb behind, overlay.ancestors id = ahead ++ tomb :: behind ∧
    overlay.classUndefs tomb name = true ∧ ∀ anc ∈ ahead, overlay.classUndefs anc name = false

/-- The nearest tombstone of a name comes before every class that defines the name itself. -/
def NearestIsTombstone (id : ClassId) (name : Name) : Prop :=
  ∃ ahead, Tombstone overlay id name ahead ∧
    ∀ anc ∈ ahead, definesItself program overlay anc name = false

/-- The program hands a class a row for a name: a module was prepended to its singleton class while
it ran, or the first body does not undefine the name and some class on the way up contributes it. -/
def HandedDown (id : ClassId) (name : Name) : Prop :=
  overlay.prependedClassMethods id name = true ∨
    name ∉ (program.body id).classUndefined ∧
      ∃ level ∈ levels program (program.classes.length + 1) [] id,
        ∃ d ∈ contributed program level, d.name = name

end Code

section Rows

variable {program : Program} {overlay : Overlay}

theorem mem_seen_claim {undefined : List Name} {walk : Walk} {d : Definition} {n : Name} :
    n ∈ (claim undefined walk d).seen ↔ n ∈ walk.seen ∨ d.name = n := by
  unfold claim
  grind

/-- A walk gives a row to the names it has seen that are not undefined. -/
theorem mem_foldl_claim {undefined : List Name} {n : Name} (defs : List Definition) (walk : Walk)
    (rows : n ∈ walk.materialized ↔ n ∉ undefined ∧ n ∈ walk.seen) :
    n ∈ (defs.foldl (claim undefined) walk).materialized ↔
      n ∉ undefined ∧ (n ∈ walk.seen ∨ ∃ d ∈ defs, d.name = n) := by
  induction defs generalizing walk with
  | nil => simpa using rows
  | cons d defs ih =>
    have next : n ∈ (claim undefined walk d).materialized ↔
        n ∉ undefined ∧ n ∈ (claim undefined walk d).seen := by
      unfold claim
      grind
    rw [foldl_cons, ih _ next, mem_seen_claim, or_assoc]
    simp only [mem_cons, exists_eq_or_imp]

/-- The rows of a class: the `def self.m` that ran, and what the program hands it. -/
theorem classDefinesOwnClassMethod_iff (id : ClassId) (name : Name) :
    classDefinesOwnClassMethod program overlay id name = true ↔
      overlay.classMethods id name = true ∨ HandedDown program overlay id name := by
  have rows : name ∈ materializeClassMethods program id ↔ name ∉ (program.body id).classUndefined ∧
      ∃ level ∈ levels program (program.classes.length + 1) [] id,
        ∃ d ∈ contributed program level, d.name = name := by
    rw [materializeClassMethods, mem_foldl_claim _ _ (by simp)]
    simp only [not_mem_nil, false_or, mem_flatMap]
    grind
  rw [classDefinesOwnClassMethod, overlayClassMethod, HandedDown, ← rows, Bool.or_eq_true,
    Bool.or_eq_true, contains_iff_mem]
  tauto

theorem row_of_definesItself {id : ClassId} {name : Name}
    (defined : definesItself program overlay id name = true) :
    classDefinesOwnClassMethod program overlay id name = true := by
  rw [classDefinesOwnClassMethod_iff]
  rw [definesItself, Bool.or_eq_true, Bool.and_eq_true, contains_iff_mem] at defined
  refine defined.imp_right fun ⟨own, allowed⟩ => .inr ⟨by simpa using allowed, ?_⟩
  exact ⟨id, by simp [levels], ⟨name, false⟩, by simp [contributed, own], rfl⟩

end Rows

section Answer

variable {program : Program} {overlay : Overlay} {id : ClassId} {name : Name}

theorem classMethodUndefined_of_no_tombstone
    (clear : ∀ anc ∈ overlay.ancestors id, overlay.classUndefs anc name = false) :
    classMethodUndefined program overlay id name = false := by
  unfold classMethodUndefined
  have missed : (overlay.ancestors id).findIdx? (fun anc => overlay.classUndefs anc name) = none :=
    List.findIdx?_eq_none_iff.mpr clear
  simp only [missed]

theorem classMethodUndefined_of_tombstone {ahead : List ClassId}
    (tombstone : Tombstone overlay id name ahead) :
    classMethodUndefined program overlay id name = true ↔
      ¬∃ anc ∈ ahead, anc ≠ id ∧ classDefinesOwnClassMethod program overlay anc name = true := by
  obtain ⟨tomb, behind, chain, here, clear⟩ := tombstone
  have found : (overlay.ancestors id).findIdx? (fun anc => overlay.classUndefs anc name) =
      some ahead.length := by
    rw [chain, List.findIdx?_append, List.findIdx?_eq_none_iff.mpr clear]
    simp [List.findIdx?_cons, here]
  have taken : (overlay.ancestors id).take ahead.length = ahead := by
    rw [chain, take_left]
  unfold classMethodUndefined
  simp only [found, taken]
  simp

theorem tombstone_unique {ahead other : List ClassId} (one : Tombstone overlay id name ahead)
    (two : Tombstone overlay id name other) : ahead = other := by
  have position : ∀ {ahead : List ClassId}, Tombstone overlay id name ahead →
      ahead = (overlay.ancestors id).takeWhile fun anc => !overlay.classUndefs anc name := by
    intro ahead tombstone
    obtain ⟨tomb, behind, chain, here, clear⟩ := tombstone
    rw [chain, takeWhile_append_of_pos (by simpa using clear)]
    simp [here]
  rw [position one, position two]

theorem tombstone_or_clear (overlay : Overlay) (id : ClassId) (name : Name) :
    (∃ ahead, Tombstone overlay id name ahead) ∨
    ∀ anc ∈ overlay.ancestors id, overlay.classUndefs anc name = false := by
  cases nearest : (overlay.ancestors id).find? fun anc => overlay.classUndefs anc name with
  | some tomb =>
    obtain ⟨here, ahead, behind, chain, clear⟩ := List.find?_eq_some_iff_append.mp nearest
    exact .inl ⟨ahead, tomb, behind, chain, here, by simpa using clear⟩
  | none => exact .inr (by simpa using List.find?_eq_none.mp nearest)

theorem nearestIsTombstone_iff {ahead : List ClassId} (tombstone : Tombstone overlay id name ahead) :
    NearestIsTombstone program overlay id name ↔
      ∀ anc ∈ ahead, definesItself program overlay anc name = false := by
  constructor
  · rintro ⟨other, same, silent⟩
    rwa [tombstone_unique tombstone same]
  · exact fun silent => ⟨ahead, tombstone, silent⟩

/-- Of the classes ahead of a tombstone, one other than the receiver is taken for a definer if one
defines the name or is handed it. -/
theorem otherRow_iff (ahead : List ClassId)
    (other : ¬∃ anc ∈ ahead, anc ≠ id ∧ definesItself program overlay anc name = true) :
    (∃ anc ∈ ahead, anc ≠ id ∧ classDefinesOwnClassMethod program overlay anc name = true) ↔
      ∃ anc ∈ ahead, anc ≠ id ∧ HandedDown program overlay anc name := by
  refine exists_congr fun anc => and_congr_right fun member => and_congr_right fun differs => ?_
  rw [classDefinesOwnClassMethod_iff, or_iff_right]
  intro ran
  exact other ⟨anc, member, differs, by rw [definesItself, ran, Bool.true_or]⟩

/-- The refusal follows the nearest tombstone exactly where there is none, where a class ahead of it
other than the receiver defines the name itself, and where the receiver defines it just in case
another class ahead is handed it. -/
theorem classMethodUndefined_nearest_iff (program : Program) (overlay : Overlay) (id : ClassId)
    (name : Name) :
    (classMethodUndefined program overlay id name = true ↔
        NearestIsTombstone program overlay id name) ↔
      ∀ ahead, Tombstone overlay id name ahead →
        (∃ anc ∈ ahead, anc ≠ id ∧ definesItself program overlay anc name = true) ∨
        (id ∈ ahead ∧ definesItself program overlay id name = true ↔
          ∃ anc ∈ ahead, anc ≠ id ∧ HandedDown program overlay anc name) := by
  rcases tombstone_or_clear overlay id name with ⟨ahead, tombstone⟩ | clear
  · have one : ∀ {P : List ClassId → Prop},
        (∀ ahead, Tombstone overlay id name ahead → P ahead) ↔ P ahead := fun {P} =>
      ⟨fun all => all ahead tombstone, fun here other same =>
        tombstone_unique tombstone same ▸ here⟩
    rw [classMethodUndefined_of_tombstone tombstone, nearestIsTombstone_iff tombstone, one]
    by_cases other : ∃ anc ∈ ahead, anc ≠ id ∧ definesItself program overlay anc name = true
    · -- The class that defines the name again is seen by the code and by the rule.
      obtain ⟨anc, member, differs, defined⟩ := other
      refine iff_of_true (iff_of_false (fun none => ?_) fun silent => ?_)
        (.inl ⟨anc, member, differs, defined⟩)
      · exact none ⟨anc, member, differs, row_of_definesItself defined⟩
      · exact Bool.false_ne_true ((silent anc member).symm.trans defined)
    · have silent : (∀ anc ∈ ahead, definesItself program overlay anc name = false) ↔
          ¬(id ∈ ahead ∧ definesItself program overlay id name = true) := by
        grind
      rw [otherRow_iff ahead other, silent, or_iff_right other, not_iff_not]
      exact iff_comm
  · have none : ¬∃ ahead, Tombstone overlay id name ahead := by
      rintro ⟨ahead, tomb, behind, chain, here, -⟩
      have absent := clear tomb (by rw [chain]; simp)
      rw [here] at absent
      exact nomatch absent
    have absent : ¬NearestIsTombstone program overlay id name :=
      fun ⟨ahead, tombstone, _⟩ => none ⟨ahead, tombstone⟩
    rw [classMethodUndefined_of_no_tombstone clear]
    simp only [Bool.false_eq_true, absent, true_iff]
    exact fun ahead tombstone => (none ⟨ahead, tombstone⟩).elim

/-- A superclass 0 with `def self.m`, its subclass 1 and that one's subclass 2. Whether the second
defines the method again is open. -/
def threeLevels (again : List Definition) : Program :=
  ⟨[⟨none, [⟨"m", false⟩], [], [], [], []⟩, ⟨some 0, again, [], [], [], []⟩,
    ⟨some 1, [], [], [], [], []⟩]⟩

/-- The overlay after `class << self; undef m; end` in class 0. -/
def undefinedAtTop : Overlay where
  ancestors := fun id => (List.range (id + 1)).reverse
  classUndefs := fun id name => id == 0 && name == "m"
  classMethods := fun _ _ => false
  prependedClassMethods := fun _ _ => false

/-- The superclass undefines the method. The subclass that defines it again is refused it, and where
no class defines it again the subclass of the subclass is not. -/
theorem classMethodUndefined_redefined :
    (classMethodUndefined (threeLevels [⟨"m", false⟩]) undefinedAtTop 1 "m" = true ∧
      ¬NearestIsTombstone (threeLevels [⟨"m", false⟩]) undefinedAtTop 1 "m") ∧
    (classMethodUndefined (threeLevels []) undefinedAtTop 2 "m" = false ∧
      NearestIsTombstone (threeLevels []) undefinedAtTop 2 "m") := by
  refine ⟨⟨by decide +kernel, ?_⟩, by decide +kernel, ?_⟩
  · rintro ⟨ahead, tombstone, silent⟩
    have first : Tombstone undefinedAtTop 1 "m" [1] := ⟨0, [], by decide, by decide, by decide⟩
    rw [tombstone_unique tombstone first] at silent
    have defined : definesItself (threeLevels [⟨"m", false⟩]) undefinedAtTop 1 "m" = true := by
      decide +kernel
    rw [silent 1 (by simp)] at defined
    exact nomatch defined
  · exact ⟨[2, 1], ⟨0, [], by decide, by decide, by decide⟩, by decide +kernel⟩

end Answer

end Zeo.Meta.ClassUndef
