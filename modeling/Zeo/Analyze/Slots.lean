import Zeo.Analyze.Materialize

/-!
# The slots of a class start with the slots of its superclass

The pass reads the class table it is writing: the members of an ancestor, and the slots of one that
a package compiled. Both are the same before and after the ancestor's own turn for whoever reads
them, so the layout of a class can be said without the order of the pass.
-/

namespace Zeo.Analyze

open Zeo.Lib List Compiler

def firstMembers (hidden : ClassId → List String) (classes : List ClassId) : List String :=
  ((classes.map hidden).find? fun members => !members.isEmpty).getD []

section Members

variable (hidden : ClassId → List String)

theorem firstMembers_cons (c : ClassId) (classes : List ClassId) :
    firstMembers hidden (c :: classes) =
      if (hidden c).isEmpty then firstMembers hidden classes else hidden c := by
  unfold firstMembers
  rw [map_cons, List.find?_cons]
  cases (hidden c).isEmpty <;> rfl

theorem firstMembers_filter {keep : ClassId → Bool} {classes : List ClassId}
    (empty : ∀ c ∈ classes, keep c = false → hidden c = []) :
    firstMembers hidden (classes.filter keep) = firstMembers hidden classes := by
  induction classes with
  | nil => rfl
  | cons c classes ih =>
    have rest := ih fun x mem => empty x (mem_cons_of_mem c mem)
    cases kept : keep c with
    | true =>
      rw [filter_cons_of_pos kept, firstMembers_cons, firstMembers_cons, rest]
    | false =>
      rw [filter_cons_of_neg (by simp [kept]), firstMembers_cons,
        empty c mem_cons_self kept, rest]
      rfl

end Members

namespace Compiler

variable (compiler : Compiler)

def members (c : ClassId) : List String :=
  firstMembers (fun a => (compiler.decl a).hiddenIvars) (compiler.line c)

def names (c : ClassId) : List String :=
  ((compiler.decl c).importedIvars).getD (compiler.ownIvars c)

/-- The names that a chain contributes, furthest first. -/
def collected (contributed : ClassId → List String) (chain : List ClassId) : List String :=
  addAll [] (chain.reverse.flatMap contributed)

def slots (c : ClassId) : List String :=
  (collected compiler.names (compiler.ancestors c)).filter (fun name => name ∉ compiler.members c)

/-- The members of a compiled `Struct` are declared with classes only. -/
def StructsAreClasses : Prop :=
  ∀ c < compiler.table.classes.length, (compiler.decl c).isModule = true →
    (compiler.decl c).hiddenIvars = []

/-- A class adds to its superclass: its chain ends in the superclass's, and it declares no members or
those that the superclass has. -/
structure Continues (c p : ClassId) : Prop where
  suffix : compiler.ancestors p <:+ compiler.ancestors c
  hidden : (compiler.decl c).hiddenIvars = [] ∨ (compiler.decl c).hiddenIvars = compiler.members p

/-- The class is one of a compiled package. -/
def imported (c : ClassId) : Bool := (compiler.decl c).importedIvars.isSome

/-- A class with an imported one above it adds to its superclass, and so does every class between
them. -/
def Regular (c : ClassId) : Prop :=
  ∀ x ∈ compiler.line c, ∀ p ∈ (compiler.table.info x).parent,
    (∃ a ∈ compiler.line p, compiler.imported a = true) → compiler.Continues x p

/-- The class table when the classes below an id have had their turn. -/
structure Stage (done : Nat) (classes : Classes) : Prop where
  hidden : ∀ c < done, compiler.isClass c = true →
    (classes c).hiddenIvars = compiler.members c
  ivars : ∀ c < done, compiler.isClass c = true → (compiler.decl c).isBuiltin = false →
    compiler.Regular c → (classes c).ivars = compiler.slots c
  rest : ∀ c, done ≤ c ∨ compiler.isClass c = false → classes c = compiler.initial c

variable {compiler}

variable (acyclic : compiler.table.Acyclic)

include acyclic

variable {c : ClassId} {p : ClassId}

theorem members_of_parent (parent : (compiler.table.info c).parent = some p) :
    compiler.members c = if (compiler.decl c).hiddenIvars.isEmpty then compiler.members p
      else (compiler.decl c).hiddenIvars := by
  unfold members
  rw [line_of_parent acyclic parent, firstMembers_cons]

theorem members_of_root (here : c < compiler.table.classes.length)
    (isClass : compiler.isClass c = true) (root : (compiler.table.info c).parent = none) :
    compiler.members c = (compiler.decl c).hiddenIvars := by
  unfold members
  rw [line_of_root acyclic here isClass root, firstMembers_cons]
  cases (compiler.decl c).hiddenIvars <;> rfl

theorem Continues.members_eq (continues : compiler.Continues c p)
    (parent : (compiler.table.info c).parent = some p) : compiler.members c = compiler.members p := by
  rw [members_of_parent acyclic parent]
  rcases continues.hidden with none | same
  · rw [none]
    rfl
  · rw [same]
    exact ite_self _

section Pass

variable {done : Nat} {classes : Classes}

omit acyclic in
theorem Stage.hidden_or (stage : compiler.Stage done classes)
    (isClass : compiler.isClass c = true) :
    (classes c).hiddenIvars = (compiler.decl c).hiddenIvars ∨
      (classes c).hiddenIvars = compiler.members c := by
  by_cases turn : c < done
  · exact .inr (stage.hidden c turn isClass)
  · rw [stage.rest c (Or.inl (Nat.le_of_not_lt turn))]
    exact .inl rfl

theorem Stage.firstMembers_line (stage : compiler.Stage done classes)
    (here : c < compiler.table.classes.length) (isClass : compiler.isClass c = true) :
    firstMembers (fun a => (classes a).hiddenIvars) (compiler.line c) = compiler.members c := by
  refine line_induction acyclic (motive := fun c =>
    firstMembers (fun a => (classes a).hiddenIvars) (compiler.line c) = compiler.members c)
    ?_ ?_ c here isClass
  · intro c here isClass root
    have own := members_of_root acyclic here isClass root
    have now : (classes c).hiddenIvars = (compiler.decl c).hiddenIvars := by
      rcases stage.hidden_or isClass with now | now
      · exact now
      · rw [now, own]
    rw [line_of_root acyclic here isClass root, firstMembers_cons, now, own]
    cases (compiler.decl c).hiddenIvars <;> rfl
  · intro c p parent above
    rw [line_of_parent acyclic parent, firstMembers_cons, above]
    have own := members_of_parent acyclic parent
    rcases stage.hidden_or (isClass_of_parent parent) with now | now
    · rw [now, own]
    · rw [now]
      cases empty : (compiler.members c).isEmpty with
      | false => rfl
      | true =>
        -- No members at all: neither the class nor its superclass has any.
        have nil : compiler.members c = [] := List.isEmpty_iff.mp empty
        rw [nil] at own
        split at own
        · rw [nil, ← own]
          rfl
        · rename_i some
          exact absurd (by rw [← own]; rfl) some

omit acyclic in
theorem Stage.hidden_module (structs : compiler.StructsAreClasses)
    (stage : compiler.Stage done classes) {m : ClassId}
    (here : m < compiler.table.classes.length) (module : compiler.isClass m = false) :
    (classes m).hiddenIvars = [] := by
  rw [stage.rest m (Or.inr module)]
  refine structs m here ?_
  unfold isClass at module
  cases kind : (compiler.decl m).isModule with
  | true => rfl
  | false =>
    rw [kind] at module
    exact nomatch module

theorem head_eq {x : ClassId} {rest : List ClassId}
    (here : c < compiler.table.classes.length) (isClass : compiler.isClass c = true)
    (chain : compiler.ancestors c = x :: rest) (first : compiler.isClass x = true) : x = c := by
  have line := line_eq acyclic here isClass
  unfold Compiler.line at line
  rw [chain, filter_cons_of_pos first] at line
  exact (List.cons.inj line).1

theorem Stage.inheritHidden_eq (structs : compiler.StructsAreClasses)
    (stage : compiler.Stage done classes)
    (here : c < compiler.table.classes.length) (isClass : compiler.isClass c = true) :
    compiler.inheritHidden classes c = compiler.members c := by
  have modules : ∀ m ∈ compiler.ancestors c, compiler.isClass m = false →
      (classes m).hiddenIvars = [] :=
    fun m mem => stage.hidden_module structs (lt_of_mem_ancestors here mem)
  have nearest := stage.firstMembers_line acyclic here isClass
  unfold inheritHidden
  cases empty : (classes c).hiddenIvars.isEmpty with
  | false =>
    rw [line_eq acyclic here isClass, firstMembers_cons, empty] at nearest
    exact nearest
  | true =>
    unfold line at nearest
    rw [firstMembers_filter _ modules] at nearest
    rw [← nearest]
    cases chain : compiler.ancestors c with
    | nil => rfl
    | cons x rest =>
      -- What comes first is the class or a module, and neither has members.
      have none : (classes x).hiddenIvars = [] := by
        cases first : compiler.isClass x with
        | false => exact modules x (chain ▸ mem_cons_self) first
        | true =>
          rw [head_eq acyclic here isClass chain first]
          exact List.isEmpty_iff.mp empty
      rw [firstMembers_cons, none]
      rfl

/-- A chain is what the class adds, with the class as its only class, ahead of the superclass's. -/
theorem ancestors_split (parent : (compiler.table.info c).parent = some p)
    (suffix : compiler.ancestors p <:+ compiler.ancestors c) :
    ∃ before after, (∀ m ∈ before ++ after, compiler.isClass m = false) ∧
      compiler.ancestors c = before ++ c :: after ++ compiler.ancestors p := by
  obtain ⟨own, chain⟩ := suffix
  have line := line_of_parent acyclic parent
  unfold Compiler.line at line
  rw [← chain, filter_append] at line
  have alone : own.filter compiler.isClass = [c] := append_cancel_right line
  obtain ⟨before, after, rfl, clear, -, clear'⟩ := filter_eq_cons_iff.mp alone
  refine ⟨before, after, fun m mem => ?_, chain.symm⟩
  rw [filter_eq_nil_iff] at clear'
  rcases mem_append.mp mem with first | second
  · exact eq_false_of_ne_true (clear m first)
  · exact eq_false_of_ne_true (clear' m second)

/-- A chain is the class with modules and the classes above it around it. -/
theorem ancestors_around (here : c < compiler.table.classes.length)
    (isClass : compiler.isClass c = true) :
    ∃ before after, (∀ m ∈ before ++ after, compiler.isClass m = false ∨
        ∃ p ∈ (compiler.table.info c).parent, m ∈ compiler.line p) ∧
      compiler.ancestors c = before ++ c :: after := by
  obtain ⟨before, after, chain, clear, -, rest⟩ :=
    filter_eq_cons_iff.mp (line_eq acyclic here isClass)
  refine ⟨before, after, fun m mem => ?_, chain⟩
  rcases mem_append.mp mem with first | second
  · exact .inl (eq_false_of_ne_true (clear m first))
  cases kind : compiler.isClass m with
  | false => exact .inl rfl
  | true =>
    have above : m ∈ after.filter compiler.isClass := mem_filter.mpr ⟨second, kind⟩
    rw [rest] at above
    unfold ClassInfo.inherited at above
    cases parent : (compiler.table.info c).parent with
    | none =>
      rw [parent] at above
      exact nomatch above
    | some p =>
      rw [parent] at above
      exact .inr ⟨p, rfl, above⟩

omit acyclic in
theorem collected_split (contributed : ClassId → List String) (before after base : List ClassId)
    (c : ClassId) :
    collected contributed (before ++ c :: after ++ base) =
      addAll (collected contributed base) (after.reverse.flatMap contributed ++ contributed c ++
        before.reverse.flatMap contributed) := by
  unfold collected
  rw [← addAll_append]
  simp

omit acyclic in
/-- What a class contributes is the same at any time of the pass unless a package compiled it. -/
theorem Stage.contributed_eq (stage : compiler.Stage done classes)
    (plain : done ≤ c ∨ compiler.isClass c = false ∨ compiler.imported c = false) :
    compiler.contributed classes c = compiler.names c := by
  unfold contributed names
  cases manifest : (compiler.decl c).importedIvars with
  | none => rfl
  | some ivars =>
    have waiting : done ≤ c ∨ compiler.isClass c = false := by
      simpa [imported, manifest] using plain
    rw [stage.rest c waiting]
    simp [initial, manifest]

theorem members_of_imported (here : c < compiler.table.classes.length)
    (isClass : compiler.isClass c = true) (regular : compiler.Regular c) :
    ∀ a ∈ compiler.line c, compiler.imported a = true →
      compiler.members a = compiler.members c := by
  refine line_induction acyclic (motive := fun c => compiler.Regular c → ∀ a ∈ compiler.line c,
    compiler.imported a = true → compiler.members a = compiler.members c)
    ?_ ?_ c here isClass regular
  · intro c here isClass root _ a mem _
    rw [line_of_root acyclic here isClass root, mem_singleton] at mem
    rw [mem]
  · intro c p parent above regular a mem package
    have line := line_of_parent acyclic parent
    rw [line, mem_cons] at mem
    rcases mem with rfl | mem
    · rfl
    · have continues := regular c (line ▸ mem_cons_self) p parent ⟨a, mem, package⟩
      rw [continues.members_eq acyclic parent]
      exact above (fun x listed => regular x (line ▸ mem_cons_of_mem c listed)) a mem package

theorem Regular.parent (regular : compiler.Regular c)
    (parent : (compiler.table.info c).parent = some p) :
    compiler.Regular p := by
  intro a mem
  refine regular a ?_
  rw [line_of_parent acyclic parent]
  exact mem_cons_of_mem c mem

variable {keep : String → Bool}

omit acyclic in
/-- What a class and its modules add is, but for the members, the same at any time of the pass. -/
theorem Stage.collected_step (stage : compiler.Stage done classes)
    (isClass : compiler.isClass c = true)
    (user : compiler.imported c = true → (compiler.decl c).isBuiltin = false)
    (regular : compiler.Regular c)
    (drops : compiler.imported c = true → ∀ name ∈ compiler.members c, keep name = false)
    {before after base : List ClassId}
    (plain : ∀ m ∈ before ++ after, compiler.contributed classes m = compiler.names m)
    (chain : compiler.ancestors c = before ++ c :: after ++ base)
    (same : (collected (compiler.contributed classes) base).filter keep =
      (collected compiler.names base).filter keep) :
    (collected (compiler.contributed classes) (compiler.ancestors c)).filter keep =
      (collected compiler.names (compiler.ancestors c)).filter keep := by
  have first : before.reverse.flatMap (compiler.contributed classes) =
      before.reverse.flatMap compiler.names :=
    flatMap_congr fun m mem => plain m (mem_append_left _ (mem_reverse.mp mem))
  have second : after.reverse.flatMap (compiler.contributed classes) =
      after.reverse.flatMap compiler.names :=
    flatMap_congr fun m mem => plain m (mem_append_right _ (mem_reverse.mp mem))
  have split : (collected compiler.names (compiler.ancestors c)).filter keep =
      addAll ((collected compiler.names base).filter keep)
        ((after.reverse.flatMap compiler.names).filter keep ++
          (compiler.names c).filter keep ++ (before.reverse.flatMap compiler.names).filter keep) := by
    rw [chain, collected_split, filter_addAll, filter_append, filter_append]
  have now : (collected (compiler.contributed classes) (compiler.ancestors c)).filter keep =
      addAll ((collected compiler.names base).filter keep)
        ((after.reverse.flatMap compiler.names).filter keep ++
          (compiler.contributed classes c).filter keep ++
          (before.reverse.flatMap compiler.names).filter keep) := by
    rw [chain, collected_split, filter_addAll, filter_append, filter_append, same, first, second]
  rw [now]
  by_cases read : compiler.imported c = true ∧ c < done
  · -- The manifest has been replaced by the whole slot list, which holds it in place.
    obtain ⟨package, turn⟩ := read
    have slots : (compiler.contributed classes c).filter keep =
        (collected compiler.names (compiler.ancestors c)).filter keep := by
      unfold contributed
      rw [if_pos (show (compiler.decl c).importedIvars.isSome = true from package),
        stage.ivars c turn isClass (user package) regular]
      unfold slots
      rw [filter_filter]
      refine filter_congr fun name _ => ?_
      by_cases mem : name ∈ compiler.members c
      · rw [drops package name mem, Bool.false_and]
      · simp [mem]
    rw [slots, split]
    exact addAll_absorb _ _ _ _
  · rw [stage.contributed_eq (by grind), split]

theorem Stage.collected_eq (stage : compiler.Stage done classes)
    (here : c < compiler.table.classes.length)
    (isClass : compiler.isClass c = true) (regular : compiler.Regular c)
    (drops : ∀ a ∈ compiler.line c, compiler.imported a = true →
      ∀ name ∈ compiler.members a, keep name = false) :
    (collected (compiler.contributed classes) (compiler.ancestors c)).filter keep =
      (collected compiler.names (compiler.ancestors c)).filter keep := by
  have user : ∀ c < compiler.table.classes.length,
      compiler.imported c = true → (compiler.decl c).isBuiltin = false := by
    intro c here package
    by_contra builtin
    have none := compiler.providedNotImported c here
      (by simp [eq_true_of_ne_false builtin])
    rw [imported, none] at package
    exact nomatch package
  -- Where no package compiled a class above, only the class's own list changes in the pass.
  have alone : ∀ c < compiler.table.classes.length, compiler.isClass c = true →
      compiler.Regular c →
      (∀ p ∈ (compiler.table.info c).parent, ∀ a ∈ compiler.line p, compiler.imported a = false) →
      (compiler.imported c = true → ∀ name ∈ compiler.members c, keep name = false) →
      (collected (compiler.contributed classes) (compiler.ancestors c)).filter keep =
        (collected compiler.names (compiler.ancestors c)).filter keep := by
    intro c here isClass regular none drops
    obtain ⟨before, after, around, chain⟩ := ancestors_around acyclic here isClass
    refine stage.collected_step isClass (user c here) regular drops (fun m mem => ?_)
      (show compiler.ancestors c = before ++ c :: after ++ [] by rw [chain, append_nil]) rfl
    rcases around m mem with module | ⟨p, parent, inside⟩
    · exact stage.contributed_eq (.inr (.inl module))
    · exact stage.contributed_eq (.inr (.inr (none p parent m inside)))
  refine line_induction acyclic (motive := fun c => compiler.Regular c →
    (∀ a ∈ compiler.line c, compiler.imported a = true →
      ∀ name ∈ compiler.members a, keep name = false) →
    (collected (compiler.contributed classes) (compiler.ancestors c)).filter keep =
      (collected compiler.names (compiler.ancestors c)).filter keep) ?_ ?_ c here isClass regular
    drops
  · intro c here isClass root regular drops
    refine alone c here isClass regular (by simp [root]) (drops c ?_)
    rw [line_of_root acyclic here isClass root]
    exact mem_singleton_self c
  · intro c p parent above regular drops
    have here := lt_of_edge (Or.inl parent)
    have line := line_of_parent acyclic parent
    rw [line] at drops
    have own := drops c mem_cons_self
    by_cases package : ∃ a ∈ compiler.line p, compiler.imported a = true
    · have continues := regular c (line ▸ mem_cons_self) p parent package
      obtain ⟨before, after, modules, chain⟩ := ancestors_split acyclic parent continues.suffix
      refine stage.collected_step (isClass_of_parent parent) (user c here) regular own
        (fun m mem => stage.contributed_eq (.inr (.inl (modules m mem)))) chain ?_
      exact above (regular.parent acyclic parent) fun a mem => drops a (mem_cons_of_mem c mem)
    · refine alone c here (isClass_of_parent parent) regular (fun q above a mem => ?_) own
      obtain rfl := Option.some.inj (parent.symm.trans above)
      exact eq_false_of_ne_true fun found => package ⟨a, mem, found⟩

omit acyclic in
theorem collectIvars_eq (user : (compiler.decl c).isBuiltin = false) :
    compiler.collectIvars classes c =
      collected (compiler.contributed classes) (compiler.ancestors c) := by
  unfold collectIvars collected
  rw [← foldl_addAll]
  have none : ∀ anc, compiler.skips c anc = false := by
    intro anc
    unfold skips
    rw [user]
    rfl
  simp only [none, Bool.false_eq_true, if_false]

theorem Stage.ivars_eq (structs : compiler.StructsAreClasses) (stage : compiler.Stage done classes)
    (here : c < compiler.table.classes.length) (isClass : compiler.isClass c = true)
    (user : (compiler.decl c).isBuiltin = false) (regular : compiler.Regular c) :
    (compiler.materializeMethods classes c).ivars = compiler.slots c := by
  change (compiler.collectIvars classes c).filter
    (fun name => name ∉ compiler.inheritHidden classes c) = _
  rw [collectIvars_eq user, stage.inheritHidden_eq acyclic structs here isClass]
  refine stage.collected_eq acyclic here isClass regular fun a mem package name listed => ?_
  rw [members_of_imported acyclic here isClass regular a mem package] at listed
  simp [listed]

theorem Stage.materializeClass (structs : compiler.StructsAreClasses)
    (stage : compiler.Stage done classes)
    (here : done < compiler.table.classes.length) :
    compiler.Stage (done + 1) (compiler.materializeClass classes done) := by
  unfold Compiler.materializeClass
  cases module : (compiler.decl done).isModule with
  | true =>
    have skipped : compiler.isClass done = false := by simp [isClass, module]
    refine ⟨fun c before isClass => ?_, fun c before isClass => ?_, fun c after => ?_⟩
    · refine stage.hidden c ?_ isClass
      grind
    · refine stage.ivars c ?_ isClass
      grind
    · refine stage.rest c ?_
      grind
  | false =>
    have turn : compiler.isClass done = true := by simp [isClass, module]
    rw [if_neg Bool.false_ne_true]
    refine ⟨fun c before isClass => ?_, fun c before isClass user regular => ?_, fun c after => ?_⟩
    · by_cases same : c = done
      · rw [same, Function.update_self]
        exact stage.inheritHidden_eq acyclic structs here turn
      · rw [Function.update_of_ne same]
        exact stage.hidden c (by omega) isClass
    · by_cases same : c = done
      · subst same
        rw [Function.update_self]
        exact stage.ivars_eq acyclic structs here turn user regular
      · rw [Function.update_of_ne same]
        exact stage.ivars c (by omega) isClass user regular
    · have other : c ≠ done := by grind
      rw [Function.update_of_ne other]
      exact stage.rest c (by grind)

end Pass

/-- The pass gives every class its members and, if its line is regular, its slots. -/
theorem stage_materialize (structs : compiler.StructsAreClasses) :
    compiler.Stage compiler.table.classes.length compiler.materialize := by
  have run : ∀ n ≤ compiler.table.classes.length,
      compiler.Stage n ((List.range n).foldl compiler.materializeClass compiler.initial) := by
    intro n
    induction n with
    | zero =>
      intro _
      exact ⟨fun c before => absurd before (Nat.not_lt_zero c),
        fun c before => absurd before (Nat.not_lt_zero c), fun _ _ => rfl⟩
    | succ n ih =>
      intro inside
      rw [range_succ, foldl_append]
      exact (ih (Nat.le_of_succ_le inside)).materializeClass acyclic structs inside
  exact run _ (Nat.le_refl _)

end Compiler

section Bodies

variable (compiler : Compiler)

/-- The program with other bodies in the same classes: other methods, and other slot lists in the
manifests. -/
def Compiler.withBodies (methods : ClassId → List Scope) (manifest : ClassId → List String) :
    Compiler :=
  { compiler with
    decl := fun c => { compiler.decl c with
      ownMethods := methods c
      importedIvars := (compiler.decl c).importedIvars.map fun _ => manifest c }
    providedNotImported := fun c here provided => by
      rw [compiler.providedNotImported c here provided]
      rfl }

/-- The bodies of every class mention the given names. -/
def Compiler.mentioning (names : ClassId → List String) : Compiler :=
  compiler.withBodies (fun c => [⟨0, "m", names c, false, .isPublic, false⟩]) names

/-- The slots of a superclass come first in the class, and its slot indices are those of the
class. -/
structure SlotsAgree (c p : ClassId) : Prop where
  first : (compiler.materialize p).ivars <+: (compiler.materialize c).ivars
  index : ∀ name i, slotOf compiler.materialize p name = some i →
    slotOf compiler.materialize c name = some i

/-- The classes and modules of a chain, furthest first. -/
def Compiler.order (c : ClassId) : List ClassId := addAll [] (compiler.ancestors c).reverse

/-- Two classes have the same names as members, at the same places. -/
structure SameMembers (c p : ClassId) : Prop where
  index : ∀ name, (compiler.members c).idxOf? name = (compiler.members p).idxOf? name
  length : (compiler.members c).length = (compiler.members p).length

variable {compiler} {c p : ClassId}

theorem SameMembers.mem_iff (same : SameMembers compiler c p) (name : String) :
    name ∈ compiler.members c ↔ name ∈ compiler.members p := by
  rw [← not_iff_not, ← idxOf?_eq_none_iff, ← idxOf?_eq_none_iff, same.index]

theorem Compiler.Regular.withBodies (regular : compiler.Regular c)
    (methods : ClassId → List Scope) (manifest : ClassId → List String) :
    (compiler.withBodies methods manifest).Regular c := by
  rintro x mem q parent ⟨a, above, package⟩
  have continues := regular x mem q parent
    ⟨a, above, by simpa [imported, Compiler.withBodies] using package⟩
  exact ⟨continues.suffix, continues.hidden⟩

theorem collected_eq_order (names : ClassId → List String) :
    collected names (compiler.ancestors c) = addAll [] ((compiler.order c).flatMap names) :=
  (addAll_flatMap_addAll names _).symm

theorem SlotsAgree.of_order (acyclic : compiler.table.Acyclic)
    (structs : compiler.StructsAreClasses) (parent : (compiler.table.info c).parent = some p)
    (user : (compiler.decl c).isBuiltin = false) (above : (compiler.decl p).isBuiltin = false)
    (regular : compiler.Regular c) (order : compiler.order p <+: compiler.order c)
    (same : SameMembers compiler c p) : SlotsAgree compiler c p := by
  have stage := stage_materialize acyclic structs
  have here := lt_of_edge (Or.inl parent)
  have there : p < compiler.table.classes.length := compiler.table.edge_lt (Or.inl parent)
  have isClass := isClass_of_parent parent
  have isClass' := parent_isClass parent
  have first : (compiler.materialize p).ivars <+: (compiler.materialize c).ivars := by
    rw [stage.ivars c here isClass user regular,
      stage.ivars p there isClass' above (regular.parent acyclic parent), slots, slots,
      collected_eq_order, collected_eq_order]
    have keep : (fun name => decide (name ∉ compiler.members c)) =
        fun name => decide (name ∉ compiler.members p) := by
      funext name
      simp only [same.mem_iff]
    obtain ⟨more, rest⟩ := order
    rw [keep, ← rest, flatMap_append, addAll_append]
    exact (prefix_addAll _ _).filter _
  refine ⟨first, fun name i slot => ?_⟩
  unfold slotOf at *
  rw [stage.hidden c here isClass, same.index, same.length]
  rw [stage.hidden p there isClass'] at slot
  cases member : (compiler.members p).idxOf? name with
  | some j =>
    rw [member] at slot
    exact slot
  | none =>
    rw [member, Option.none_or, Option.map_eq_some_iff] at slot
    obtain ⟨j, index, rfl⟩ := slot
    rw [idxOf?_of_starts first index]
    rfl

theorem names_mentioning {names : ClassId → List String} (once : ∀ a, (names a).length ≤ 1)
    (a : ClassId) : (compiler.mentioning names).names a = names a := by
  have own : (compiler.mentioning names).ownIvars a = names a := by
    change addAll [] ([_].flatMap Scope.ivars) = _
    rw [flatMap_singleton]
    cases listed : names a with
    | nil => rfl
    | cons name rest =>
      have none : rest = [] := by simpa [listed] using once a
      rw [none]
      rfl
  unfold Compiler.names
  rw [own]
  change ((compiler.decl a).importedIvars.map fun _ => names a).getD (names a) = _
  cases (compiler.decl a).importedIvars <;> rfl

section Mentions

variable (acyclic : compiler.table.Acyclic) (structs : compiler.StructsAreClasses)
  (names : ClassId → List String)

include acyclic structs

theorem hidden_mentioning (here : c < compiler.table.classes.length)
    (isClass : compiler.isClass c = true) :
    ((compiler.mentioning names).materialize c).hiddenIvars = compiler.members c :=
  have stage : (compiler.mentioning names).Stage _ _ := stage_materialize acyclic structs
  stage.hidden c here isClass

theorem ivars_mentioning (once : ∀ a, (names a).length ≤ 1)
    (here : c < compiler.table.classes.length) (isClass : compiler.isClass c = true)
    (user : (compiler.decl c).isBuiltin = false) (regular : compiler.Regular c) :
    ((compiler.mentioning names).materialize c).ivars =
      (addAll [] ((compiler.order c).flatMap names)).filter (fun name => name ∉ compiler.members c) := by
  have stage : (compiler.mentioning names).Stage _ _ := stage_materialize acyclic structs
  have same : (compiler.mentioning names).names = names := funext (names_mentioning once)
  rw [stage.ivars c here isClass user (regular.withBodies _ _), slots, collected_eq_order, same]
  rfl

end Mentions

/-- There are more names than any list has. -/
theorem exists_fresh (avoid : List String) :
    ∃ f : Nat → String, Function.Injective f ∧ ∀ k, f k ∉ avoid := by
  obtain ⟨n, bound⟩ : ∃ n, ∀ s ∈ avoid, s.length < n := by
    induction avoid with
    | nil => exact ⟨0, by simp⟩
    | cons s rest ih =>
      obtain ⟨n, bound⟩ := ih
      exact ⟨max n (s.length + 1), by grind⟩
  refine ⟨fun k => String.ofList (replicate (n + k) 'x'), fun k l same => ?_, fun k listed => ?_⟩
  · have lengths := congrArg String.length same
    simpa using lengths
  · have short := bound _ listed
    rw [String.length_ofList, length_replicate] at short
    omega

theorem starts_of_map {α β : Type} {f : α → β} (injective : Function.Injective f) {xs ys : List α}
    (starts : xs.map f <+: ys.map f) : xs <+: ys := by
  obtain ⟨rest, whole⟩ := starts
  obtain ⟨front, back, rfl, same, -⟩ := map_eq_append_iff.mp whole.symm
  rw [← map_injective_iff.mpr injective same]
  exact prefix_append _ _

/-- A chain whose classes each mention a name of their own has the names in the order of the
chain. -/
theorem addAll_order {f : ClassId → String} (injective : Function.Injective f) (c : ClassId) :
    addAll [] ((compiler.order c).flatMap fun a => [f a]) = (compiler.order c).map f := by
  rw [← map_eq_flatMap, ← map_addAll injective, Compiler.order, addAll_addAll _ (by simp)]

end Bodies

/-- `module A` with `@a`, `module B` with `@b`, `module M; include B; include A`,
`class P; include A` with `@p`, `class C < P; include M`, a `class Struct` with `@v` in a module,
`X = Struct.new(:m)` beside it and `class Q < P; prepend B` with `@q`, in this order. -/
def sharedSlots : Compiler where
  table := ⟨[⟨none, []⟩, ⟨none, []⟩, ⟨none, []⟩, ⟨none, [(2, false), (1, false)]⟩,
    ⟨some 0, [(1, false)]⟩, ⟨some 4, [(3, false)]⟩, ⟨some 0, []⟩, ⟨some 6, []⟩,
    ⟨some 4, [(2, true)]⟩], by decide, by decide⟩
  decl
    | 1 => ⟨true, false, [⟨0, "a", ["@a"], false, .isPublic, false⟩], [], [], [], none⟩
    | 2 => ⟨true, false, [⟨1, "b", ["@b"], false, .isPublic, false⟩], [], [], [], none⟩
    | 3 => ⟨true, false, [], [], [], [], none⟩
    | 4 => ⟨false, false, [⟨2, "p", ["@p"], false, .isPublic, false⟩], [], [], [], none⟩
    | 6 => ⟨false, false, [⟨3, "initialize", ["@v"], false, .isPrivate, false⟩], [], [], [], none⟩
    | 7 => ⟨false, false, [⟨4, "initialize", ["@m"], false, .isPrivate, false⟩], [], [], ["@m"],
        none⟩
    | 8 => ⟨false, false, [⟨5, "q", ["@p", "@q"], false, .isPublic, false⟩], [], [], [], none⟩
    | _ => ⟨false, false, [], [], [], [], none⟩
  surfaceFor _ := []
  mixinsAreModules := by decide
  modulesHaveNoParent := by decide
  parentsAreClasses := by decide
  providedNotImported := by decide

theorem sharedSlots_acyclic : sharedSlots.table.Acyclic :=
  acyclic_of_descending (by decide) (by decide)

end Zeo.Analyze
