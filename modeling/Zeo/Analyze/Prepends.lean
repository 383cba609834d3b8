import Zeo.Analyze.Mro

/-!
# What stands ahead of a class

The replay of a class body tracks the index of the class in its chain, and only a prepend moves
that index. It is the right one as long as no include brings a new module right behind one that
was prepended: such an include goes on ahead of the class.
-/

namespace Zeo.Analyze

open Zeo.Lib List

/-- The class stands in its chain once, at the tracked index, behind what was prepended to it. -/
structure Centered (c : ClassId) (mixins : List SubChain) (state : Tracked) : Prop where
  once : state.1.count c = 1
  origin : state.1[state.2]? = some c
  ahead : ∀ x ∈ state.1.take state.2, ∃ m ∈ mixins, m.2 = true ∧ x ∈ m.1

section Steps

variable {c : ClassId} {mixins : List SubChain} {state : Tracked}

theorem Centered.split (centered : Centered c mixins state) :
    ∃ rest, state.1 = state.1.take state.2 ++ c :: rest ∧ c ∉ state.1.take state.2 ∧
      c ∉ rest ∧ (state.1.take state.2).length = state.2 := by
  obtain ⟨bound, here⟩ := List.getElem?_eq_some_iff.mp centered.origin
  have parts : state.1 = state.1.take state.2 ++ c :: state.1.drop (state.2 + 1) := by
    conv_lhs => rw [← take_append_drop state.2 state.1, drop_eq_getElem_cons bound, here]
  have count := centered.once
  rw [parts, count_append, count_cons_self] at count
  have length : (state.1.take state.2).length = state.2 := by
    rw [length_take]
    omega
  refine ⟨state.1.drop (state.2 + 1), parts, ?_, ?_, length⟩
  · exact count_eq_zero.mp (by omega)
  · exact count_eq_zero.mp (by omega)

theorem centered_of_split {area rest : List ClassId} (outside : c ∉ area) (last : c ∉ rest)
    (prepended : ∀ x ∈ area, ∃ m ∈ mixins, m.2 = true ∧ x ∈ m.1) :
    Centered c mixins (area ++ c :: rest, area.length) where
  once := by
    rw [count_append, count_cons_self, count_eq_zero_of_not_mem outside,
      count_eq_zero_of_not_mem last]
  origin := by simp
  ahead := by
    rw [take_left]
    exact prepended

theorem vouched_append {area : List ClassId} (more : List SubChain)
    (prepended : ∀ x ∈ area, ∃ m ∈ mixins, m.2 = true ∧ x ∈ m.1) :
    ∀ x ∈ area, ∃ m ∈ mixins ++ more, m.2 = true ∧ x ∈ m.1 := by
  intro x mem
  obtain ⟨m, listed, verb, inside⟩ := prepended x mem
  exact ⟨m, mem_append_left _ listed, verb, inside⟩

theorem Centered.prepend (centered : Centered c mixins state) (sub : List ClassId)
    (other : c ∉ sub) : Centered c (mixins ++ [(sub, true)]) (mixInto state sub true) := by
  obtain ⟨rest, parts, outside, last, length⟩ := centered.split
  have ahead := centered.ahead
  obtain ⟨chain, origin⟩ := state
  generalize chain.take origin = area at *
  subst parts length
  have fits : Cursor.Fits ⟨area, 0⟩ := Nat.zero_le _
  rw [mixInto_area]
  apply centered_of_split
  · rw [Cursor.mem_merge _ _ _ fits]
    exact not_or.mpr ⟨outside, other⟩
  · exact last
  · intro x mem
    rw [Cursor.mem_merge _ _ _ fits] at mem
    cases mem with
    | inl old => exact vouched_append _ ahead x old
    | inr new => exact ⟨(sub, true), by simp, rfl, new⟩

/-- An include keeps the class centered exactly when it brings no new module right behind one
that stands ahead of the class. -/
theorem Centered.include_iff (centered : Centered c mixins state) (sub : List ClassId) :
    Centered c (mixins ++ [(sub, false)]) (mixInto state sub false) ↔
      Undisturbed (· ∈ state.1.take state.2) state.1 sub := by
  obtain ⟨rest, parts, outside, last, length⟩ := centered.split
  have ahead := centered.ahead
  obtain ⟨chain, origin⟩ := state
  generalize chain.take origin = area at *
  subst parts length
  have fits : Cursor.Fits ⟨area ++ c :: rest, area.length + 1⟩ := by
    change area.length + 1 ≤ (area ++ c :: rest).length
    rw [length_append, length_cons]
    omega
  have there : c ∈ area ++ c :: rest := by simp
  rw [mixInto_include, ← Cursor.prefix_merge_iff sub (Nat.lt_succ_self _) fits]
  have count := Cursor.merge_count _ sub fits there
  obtain ⟨area', rest', items, outside', areaOrder, -⟩ :=
    Cursor.merge_around sub outside fits
  rw [items] at count ⊢
  have single : (area ++ c :: rest).count c = 1 := by
    rw [count_append, count_cons_self, count_eq_zero_of_not_mem outside,
      count_eq_zero_of_not_mem last]
  have last' : c ∉ rest' := by
    rw [single, count_append, count_cons_self] at count
    exact count_eq_zero.mp (by omega)
  constructor
  · intro still
    -- The class is where it was, so as many stand ahead of it as before: the same ones.
    have index : (area' ++ c :: rest')[area.length]? = some c := still.origin
    have same : area'.length = area.length := by
      by_contra different
      have elsewhere : area.length < area'.length ∨ area'.length < area.length := by omega
      cases elsewhere with
      | inl short =>
        rw [List.getElem?_append_left short] at index
        exact outside' (mem_of_getElem? index)
      | inr long =>
        rw [List.getElem?_append_right (Nat.le_of_lt long)] at index
        obtain ⟨gap, positive⟩ : ∃ gap, area.length - area'.length = gap + 1 :=
          ⟨area.length - area'.length - 1, by omega⟩
        rw [positive] at index
        exact last' (mem_of_getElem? index)
    have kept : area' = area := by
      have whole := filter_sublist.eq_of_length (by rw [areaOrder, same])
      rw [← whole, areaOrder]
    rw [kept]
    exact ⟨rest', by simp⟩
  · rintro ⟨later, shape⟩
    rw [append_assoc] at shape
    obtain ⟨rfl, rfl⟩ := append_pivot_inj outside outside' shape
    exact centered_of_split outside last' (vouched_append _ ahead)

end Steps

theorem forall_prefix_snoc {α : Type} (items : List α) (last : α) (holds : List α → Prop) :
    (∀ before after, items ++ [last] = before ++ after → holds before) ↔
      (∀ before after, items = before ++ after → holds before) ∧ holds (items ++ [last]) := by
  constructor
  · intro all
    refine ⟨fun before after split => ?_, all _ [] (by simp)⟩
    exact all before (after ++ [last]) (by rw [split, append_assoc])
  · rintro ⟨earlier, whole⟩ before after split
    cases after using List.reverseRecOn with
    | nil =>
      rw [append_nil] at split
      exact split ▸ whole
    | append_singleton after other =>
      rw [← append_assoc] at split
      exact earlier before after (append_inj' split rfl).1

/-- The replay keeps the class centered exactly when every include does. -/
theorem centered_mixAll_iff {c : ClassId} {inherited : List ClassId}
    {mixins : List SubChain} (outside : c ∉ inherited)
    (others : ∀ mixin ∈ mixins, c ∉ mixin.1) :
    (∀ before after, mixins = before ++ after →
        Centered c before (mixAll (c :: inherited, 0) before)) ↔
      AtEach (c :: inherited, 0) mixins fun state mixin => mixin.2 = false →
        Undisturbed (· ∈ state.1.take state.2) state.1 mixin.1 := by
  induction mixins using List.reverseRecOn with
  | nil =>
    constructor
    · intro _ before mixin after split
      exact absurd split (by simp)
    · intro _ before after split
      rw [(append_eq_nil_iff.mp split.symm).1]
      exact centered_of_split not_mem_nil outside (by simp)
  | append_singleton mixins last ih =>
    have other : c ∉ last.1 := others last (by simp)
    rw [forall_prefix_snoc, atEach_snoc,
      ← ih fun mixin listed => others mixin (mem_append_left _ listed), mixAll_snoc]
    refine and_congr_right fun earlier => ?_
    have before := earlier mixins [] (by simp)
    obtain ⟨sub, verb⟩ := last
    cases verb with
    | false => simpa using before.include_iff sub
    | true => simpa using before.prepend sub other

/-- The chain of a class is the replay of its body, and all along the replay the class stands once
in the chain, at the tracked index, behind what was prepended to it, exactly when no include of the
body brings a new module right behind one that stands ahead of the class. -/
theorem prepend_area_iff (table : ClassTable) (acyclic : table.Acyclic) (c : ClassId)
    (here : c < table.classes.length) :
    computeAncestors table c =
      (mixAll (c :: (table.info c).inherited (computeAncestors table), 0)
        ((table.info c).subs (computeAncestors table))).1 ∧
    ((∀ before after, (table.info c).subs (computeAncestors table) = before ++ after →
        Centered c before
          (mixAll (c :: (table.info c).inherited (computeAncestors table), 0) before)) ↔
      AtEach (c :: (table.info c).inherited (computeAncestors table), 0)
        ((table.info c).subs (computeAncestors table)) fun state mixin => mixin.2 = false →
          Undisturbed (· ∈ state.1.take state.2) state.1 mixin.1) :=
  ⟨computeAncestors_eq acyclic here, centered_mixAll_iff (not_mem_inherited acyclic c)
    (not_mem_mixin acyclic)⟩

/-- `module A`, `module B`, `module M; include B; include A` and `class C; prepend A; include M`,
above `Object`, in this order. -/
def prependedModuleTable : ClassTable where
  classes := [⟨none, []⟩, ⟨none, []⟩, ⟨none, []⟩, ⟨none, [(2, false), (1, false)]⟩,
    ⟨some 0, [(1, true), (3, false)]⟩]
  parents := by decide
  mixins := by decide

theorem prependedModuleTable_acyclic : prependedModuleTable.Acyclic :=
  acyclic_of_descending (by decide) (by decide)

/-- The include of `M` puts `B` behind the prepended `A`, ahead of the class, and the tracked
index names `B`. -/
theorem include_lands_ahead : prependedModuleTable.Acyclic ∧
    computeAncestors prependedModuleTable 4 = [1, 2, 4, 3, 0] ∧
    ¬ Centered 4 ((prependedModuleTable.info 4).subs (computeAncestors prependedModuleTable))
      (mixAll (4 :: (prependedModuleTable.info 4).inherited (computeAncestors prependedModuleTable),
        0) ((prependedModuleTable.info 4).subs (computeAncestors prependedModuleTable))) :=
  ⟨prependedModuleTable_acyclic, by decide, fun centered => absurd centered.origin (by decide)⟩

/-- The replay of the body of `Q`, a prepend and an include, keeps its class centered. -/
theorem prepend_area_iff_include : sharedModuleTable.Acyclic ∧
    Centered 6 ((sharedModuleTable.info 6).subs (computeAncestors sharedModuleTable))
      (mixAll (6 :: (sharedModuleTable.info 6).inherited (computeAncestors sharedModuleTable), 0)
        ((sharedModuleTable.info 6).subs (computeAncestors sharedModuleTable))) := by
  refine ⟨sharedModuleTable_acyclic, ?_⟩
  have iff := (prepend_area_iff sharedModuleTable sharedModuleTable_acyclic 6 (by decide)).2
  refine iff.mpr ?_ _ [] (by simp)
  intro before mixin after split _ front x y rest sub _
  have short : ∀ m ∈ (sharedModuleTable.info 6).subs (computeAncestors sharedModuleTable),
      m.1.length ≤ 1 := by decide
  have one := short mixin (by rw [split]; simp)
  rw [sub, length_append, length_cons, length_cons] at one
  omega

end Zeo.Analyze
