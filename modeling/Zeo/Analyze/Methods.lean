import Zeo.Analyze.Materialize

/-!
# The method table of a class

The walk over the chain binds a name to the nearest definition. A name is claimed by a definition
that is not conditional and by a native row, and the class's own `undef` takes it off the table.
-/

namespace Zeo.Analyze

open List

namespace Compiler

variable (compiler : Compiler)

/-- The definition of a name in a class body, conditional ones apart. -/
def definition (a : ClassId) (m : String) : Option Scope :=
  (compiler.decl a).ownMethods.find? fun scope => !scope.runtimeConditional && scope.name == m

def claims (m : String) (a : ClassId) : Bool :=
  (compiler.definition a m).isSome || decide (m ∈ compiler.surfaceFor a)

def speaks (m : String) (a : ClassId) : Bool :=
  compiler.claims m a || decide (m ∈ (compiler.decl a).undefined)

/-- The chain of a class. A builtin leaves `Object` out. -/
def walked (c : ClassId) : List ClassId :=
  (compiler.ancestors c).filter fun anc => !compiler.skips c anc

def nearest (c : ClassId) (m : String) : Option ClassId :=
  (compiler.walked c).find? (compiler.speaks m)

end Compiler

def boundTo (m : String) (entries : List MethodEntry) : List Nat :=
  (entries.filter fun entry => entry.name == m).map MethodEntry.definition

theorem mem_boundTo (m : String) (entries : List MethodEntry) (d : Nat) :
    d ∈ boundTo m entries ↔ ∃ entry ∈ entries, entry.name = m ∧ entry.definition = d := by
  simp [boundTo, and_assoc]

namespace Compiler

variable (compiler : Compiler) (c : ClassId) (m : String)

theorem visitMethod_cases (walk : Walk) (scope : Scope) :
    (scope.runtimeConditional = true ∨ scope.name ∈ walk.seen) ∧
        compiler.visitMethod c walk scope = walk ∨
      scope.runtimeConditional = false ∧ scope.name ∉ walk.seen ∧
        scope.name ∈ (compiler.decl c).undefined ∧
        compiler.visitMethod c walk scope = { walk with seen := scope.name :: walk.seen } ∨
      scope.runtimeConditional = false ∧ scope.name ∉ walk.seen ∧
        scope.name ∉ (compiler.decl c).undefined ∧
        ∃ entry, entry.name = scope.name ∧ entry.definition = scope.id ∧
          compiler.visitMethod c walk scope = { walk with
            seen := scope.name :: walk.seen
            materialized := walk.materialized ++ [entry] } := by
  unfold visitMethod
  cases conditional : scope.runtimeConditional with
  | true => exact .inl ⟨.inl rfl, rfl⟩
  | false =>
    by_cases seen : scope.name ∈ walk.seen
    · exact .inl ⟨.inr seen, if_pos seen⟩
    · rw [if_neg seen]
      by_cases undefined : scope.name ∈ (compiler.decl c).undefined
      · exact .inr (.inl ⟨rfl, seen, undefined, if_pos undefined⟩)
      · refine .inr (.inr ⟨rfl, seen, undefined, ?_⟩)
        rw [if_neg undefined]
        refine ⟨_, ?_, ?_, rfl⟩
        · cases walk.rescoped.lookup scope.name <;> rfl
        · cases walk.rescoped.lookup scope.name <;> rfl

def bound (walk : Walk) (found : Option Scope) : List Nat :=
  if m ∈ walk.seen ∨ m ∈ (compiler.decl c).undefined then [] else (found.map Scope.id).toList

theorem bound_congr {walk walk' : Walk} (same : m ∈ walk.seen ↔ m ∈ walk'.seen)
    (found : Option Scope) : bound compiler c m walk found = bound compiler c m walk' found := by
  unfold bound
  simp only [same]

theorem visitMethod_other (walk : Walk) {scope : Scope}
    (other : (!scope.runtimeConditional && scope.name == m) = false) :
    (m ∈ (compiler.visitMethod c walk scope).seen ↔ m ∈ walk.seen) ∧
      boundTo m (compiler.visitMethod c walk scope).materialized =
        boundTo m walk.materialized := by
  have differs : scope.runtimeConditional = false → m ≠ scope.name ∧ (scope.name == m) = false := by
    intro plain
    rw [plain] at other
    exact ⟨by rintro rfl; simp at other, by simpa using other⟩
  obtain ⟨-, same⟩ | ⟨plain, -, -, same⟩ | ⟨plain, -, -, entry, name, -, same⟩ :=
    visitMethod_cases compiler c walk scope
  · rw [same]
    exact ⟨.rfl, rfl⟩
  · rw [same]
    exact ⟨by simp [(differs plain).1], rfl⟩
  · rw [same]
    refine ⟨by simp [(differs plain).1], ?_⟩
    simp [boundTo, name, (differs plain).2]

theorem visitMethod_named (walk : Walk) {scope : Scope}
    (named : (!scope.runtimeConditional && scope.name == m) = true) :
    m ∈ (compiler.visitMethod c walk scope).seen ∧
      boundTo m (compiler.visitMethod c walk scope).materialized =
        boundTo m walk.materialized ++ bound compiler c m walk (some scope) := by
  have plain : scope.runtimeConditional = false := by
    cases conditional : scope.runtimeConditional with
    | false => rfl
    | true =>
      rw [conditional] at named
      exact nomatch named
  have name : scope.name = m := by
    rw [plain] at named
    simpa using named
  subst name
  unfold bound
  obtain ⟨skipped, same⟩ | ⟨-, -, undefined, same⟩ | ⟨-, new, defined, entry, name, id, same⟩ :=
    visitMethod_cases compiler c walk scope
  · have seen : scope.name ∈ walk.seen := by
      rcases skipped with conditional | seen
      · rw [plain] at conditional
        exact nomatch conditional
      · exact seen
    rw [same, if_pos (Or.inl seen), append_nil]
    exact ⟨seen, rfl⟩
  · rw [same, if_pos (Or.inr undefined), append_nil]
    exact ⟨mem_cons_self, rfl⟩
  · rw [same, if_neg (by simp [new, defined])]
    exact ⟨mem_cons_self, by simp [boundTo, name, id]⟩

theorem visitMethods (scopes : List Scope) (walk : Walk) :
    (m ∈ (scopes.foldl (compiler.visitMethod c) walk).seen ↔ m ∈ walk.seen ∨
      (scopes.find? fun scope => !scope.runtimeConditional && scope.name == m).isSome = true) ∧
    boundTo m (scopes.foldl (compiler.visitMethod c) walk).materialized =
      boundTo m walk.materialized ++ bound compiler c m walk
        (scopes.find? fun scope => !scope.runtimeConditional && scope.name == m) := by
  induction scopes generalizing walk with
  | nil => simp [bound]
  | cons scope scopes ih =>
    obtain ⟨seen, table⟩ := ih (compiler.visitMethod c walk scope)
    rw [foldl_cons, seen, table, List.find?_cons]
    cases which : (!scope.runtimeConditional && scope.name == m) with
    | false =>
      obtain ⟨seen', table'⟩ := visitMethod_other compiler c m walk which
      rw [seen', table', bound_congr compiler c m seen']
      exact ⟨.rfl, rfl⟩
    | true =>
      obtain ⟨seen', table'⟩ := visitMethod_named compiler c m walk which
      have later : ∀ found, bound compiler c m (compiler.visitMethod c walk scope) found = [] :=
        fun _ => if_pos (.inl seen')
      rw [table', later, append_nil]
      exact ⟨by simp [seen'], rfl⟩

theorem visitAncestor_walked (walk : Walk) {anc : ClassId} (walked : compiler.skips c anc = false) :
    (m ∈ (compiler.visitAncestor c walk anc).seen ↔ m ∈ walk.seen ∨ compiler.claims m anc = true) ∧
    boundTo m (compiler.visitAncestor c walk anc).materialized =
      boundTo m walk.materialized ++ bound compiler c m walk (compiler.definition anc m) := by
  obtain ⟨seen, table⟩ := visitMethods compiler c m (compiler.decl anc).ownMethods
    { walk with rescoped := walk.rescoped ++ (compiler.decl anc).visibilityOverrides }
  unfold visitAncestor
  rw [walked]
  refine ⟨?_, table⟩
  unfold claims definition
  grind

theorem visitAncestor_skipped (walk : Walk) {anc : ClassId}
    (skipped : compiler.skips c anc = true) :
    (compiler.visitAncestor c walk anc).seen = walk.seen ∧
      (compiler.visitAncestor c walk anc).materialized = walk.materialized := by
  unfold visitAncestor
  rw [if_pos skipped]
  exact ⟨rfl, rfl⟩

/-- The walk over a chain binds a name to the definition of the first class that claims it. -/
theorem visitAncestors (chain : List ClassId) (walk : Walk) :
    boundTo m (chain.foldl (compiler.visitAncestor c) walk).materialized =
      boundTo m walk.materialized ++ bound compiler c m walk
        (((chain.filter fun anc => !compiler.skips c anc).find? (compiler.claims m)).bind
          (compiler.definition · m)) := by
  induction chain generalizing walk with
  | nil => simp [bound]
  | cons anc chain ih =>
    rw [foldl_cons, ih]
    cases skip : compiler.skips c anc with
    | true =>
      obtain ⟨seen, table⟩ := visitAncestor_skipped compiler c walk skip
      have claimed : m ∈ (compiler.visitAncestor c walk anc).seen ↔ m ∈ walk.seen := by rw [seen]
      rw [filter_cons_of_neg (by simp [skip]), table, bound_congr compiler c m claimed]
    | false =>
      obtain ⟨seen, table⟩ := visitAncestor_walked compiler c m walk skip
      rw [filter_cons_of_pos (by simp [skip]), table, append_assoc]
      congr 1
      cases claimed : compiler.claims m anc with
      | false =>
        have missing : compiler.definition anc m = none := by
          simpa using (Bool.or_eq_false_iff.mp claimed).1
        rw [missing]
        unfold bound
        simp [seen, claimed]
      | true =>
        unfold bound
        simp [seen, claimed]

/-- The table binds a name to the definition of the first class that claims it, unless the class
itself undefines the name. -/
theorem boundTo_materializedMethods :
    boundTo m (compiler.materializedMethods c) =
      if m ∈ (compiler.decl c).undefined then []
      else ((((compiler.walked c).find? (compiler.claims m)).bind
        (compiler.definition · m)).map Scope.id).toList := by
  unfold materializedMethods walked
  rw [visitAncestors compiler c m]
  simp [bound, boundTo]

theorem find?_claims
    (defined : ∀ a ∈ compiler.nearest c m, m ∉ (compiler.decl a).undefined) :
    (compiler.walked c).find? (compiler.claims m) = compiler.nearest c m := by
  unfold nearest at *
  generalize compiler.walked c = chain at defined ⊢
  induction chain with
  | nil => rfl
  | cons a chain ih =>
    rw [List.find?_cons] at defined
    rw [List.find?_cons, List.find?_cons]
    cases spoken : compiler.speaks m a with
    | true =>
      rw [spoken] at defined
      have kept : m ∉ (compiler.decl a).undefined := defined a rfl
      have claimed : compiler.claims m a = true := by
        unfold speaks at spoken
        simpa [kept] using spoken
      rw [claimed]
    | false =>
      rw [spoken] at defined
      have silent : compiler.claims m a = false := by
        exact (Bool.or_eq_false_iff.mp spoken).1
      rw [silent]
      exact ih defined

end Compiler

/-- Where the nearest class that says anything about a name is the class itself, or neither of
them undefines it, the class has an entry for the name exactly when that class defines it and
leaves it defined, and the entry is bound to that definition. -/
theorem entry_iff_nearest (compiler : Compiler) (classes : Classes) (c : ClassId) (m : String)
    (plain : compiler.nearest c m = some c ∨
      m ∉ (compiler.decl c).undefined ∧
        ∀ a ∈ compiler.nearest c m, m ∉ (compiler.decl a).undefined) (d : Nat) :
    (∃ entry ∈ (compiler.materializeMethods classes c).methods,
        entry.name = m ∧ entry.definition = d) ↔
      ∃ a ∈ compiler.nearest c m, m ∉ (compiler.decl a).undefined ∧
        ∃ scope ∈ compiler.definition a m, scope.id = d := by
  rw [← mem_boundTo]
  change d ∈ boundTo m (compiler.materializedMethods c) ↔ _
  rw [Compiler.boundTo_materializedMethods]
  by_cases own : m ∈ (compiler.decl c).undefined
  · have self : compiler.nearest c m = some c := by
      rcases plain with self | ⟨defined, -⟩
      · exact self
      · exact absurd own defined
    rw [self]
    simp [own]
  · rw [if_neg own]
    have defined : ∀ a ∈ compiler.nearest c m, m ∉ (compiler.decl a).undefined := by
      rcases plain with self | ⟨-, defined⟩
      · rw [self]
        rintro a ⟨⟩
        exact own
      · exact defined
    have same := Compiler.find?_claims compiler c m defined
    rw [same]
    cases found : compiler.nearest c m with
    | none => simp
    | some a => simp [defined a found]

/-- `Array` has no entry for `top`, although the nearest class of its chain that says anything about
it is `Object`, which defines it. -/
theorem builtin_without_object_entry :
    (reopenedArray.ancestors 1).find? (reopenedArray.speaks "top") = some 0 ∧
      (reopenedArray.definition 0 "top").map Scope.id = some 0 ∧
      ¬ ∃ entry ∈ (reopenedArray.materializeMethods reopenedArray.initial 1).methods,
        entry.name = "top" ∧ entry.definition = 0 := by decide

/-- `Q` has the entry of `P`. -/
theorem entry_iff_nearest_inherited :
    "p" ∉ (reopenedArray.decl 4).undefined ∧ reopenedArray.nearest 4 "p" = some 3 ∧
      ∃ entry ∈ (reopenedArray.materializeMethods reopenedArray.initial 4).methods,
        entry.name = "p" ∧ entry.definition = 2 :=
  ⟨by decide, by decide,
    (entry_iff_nearest reopenedArray reopenedArray.initial 4 "p" (.inr (by decide)) 2).mpr
      ⟨3, by decide, by decide, _, rfl, rfl⟩⟩

end Zeo.Analyze
