import Mathlib.Data.List.Basic
import Mathlib.Logic.Relation

/-!
# Marking by worklist

A graph on the positions of a vector is given by the targets of each position. Marking pops a
position off a stack, skips it when it is marked, and otherwise marks it and pushes its targets.
The marked positions are those the start reaches: the marks are closed under the targets, and stay
inside every closed set that holds the start.
-/

namespace Zeo.Lib

open List

def unmarked (marks : List Bool) : Nat := marks.count false

variable {marks : List Bool}

theorem unmarked_set {i : Nat} (fresh : marks[i]? = some false) :
    unmarked (marks.set i true) < unmarked marks := by
  induction marks generalizing i with
  | nil => simp at fresh
  | cons first rest ih =>
    cases i with
    | zero =>
      obtain rfl : first = false := by simpa using fresh
      simp [unmarked]
    | succ i =>
      have later := ih (by simpa using fresh)
      simp only [unmarked, set_cons_succ, count_cons] at later ⊢
      omega

/-- Pop, skip or mark, push the targets. The top of the stack is its head. -/
def mark (targets : Nat → List Nat) (marks : List Bool) : List Nat → List Bool
  | [] => marks
  | i :: stack =>
    if marks[i]? = some false then
      mark targets (marks.set i true) ((targets i).reverse ++ stack)
    else mark targets marks stack
termination_by stack => (unmarked marks, stack.length)
decreasing_by
  · next fresh => exact Prod.Lex.left _ _ (unmarked_set fresh)
  · exact Prod.Lex.right _ (by simp)

variable {targets : Nat → List Nat}

theorem mark_length (marks : List Bool) (stack : List Nat) :
    (mark targets marks stack).length = marks.length := by
  induction marks, stack using mark.induct targets with
  | case1 marks => rw [mark]
  | case2 marks i stack fresh ih =>
    rw [mark, if_pos fresh, ih, length_set]
  | case3 marks i stack old ih => rw [mark, if_neg old, ih]

theorem set_marked {i j : Nat} (marked : (marks.set i true)[j]? = some true) :
    j = i ∨ marks[j]? = some true := by
  by_cases same : i = j
  · exact .inl same.symm
  · rw [List.getElem?_set_ne same] at marked
    exact .inr marked

theorem mark_within (inside : Nat → Prop) (closed : ∀ i, inside i → ∀ j ∈ targets i, inside j)
    (marks : List Bool) (stack : List Nat) (marked : ∀ j, marks[j]? = some true → inside j)
    (stacked : ∀ j ∈ stack, inside j) (j : Nat)
    (final : (mark targets marks stack)[j]? = some true) : inside j := by
  induction marks, stack using mark.induct targets with
  | case1 marks =>
    rw [mark] at final
    exact marked j final
  | case2 marks i stack fresh ih =>
    rw [mark, if_pos fresh] at final
    have here : inside i := stacked i mem_cons_self
    refine ih ?_ ?_ final
    · intro k after
      rcases set_marked after with rfl | before
      · exact here
      · exact marked k before
    · intro k mem
      rcases mem_append.mp mem with target | later
      · exact closed i here k (mem_reverse.mp target)
      · exact stacked k (mem_cons_of_mem i later)
  | case3 marks i stack old ih =>
    rw [mark, if_neg old] at final
    exact ih marked (fun k mem => stacked k (mem_cons_of_mem i mem)) final

/-- Marks and a stack between them cover the targets of every marked position. -/
def Covered (targets : Nat → List Nat) (marks : List Bool) (stack : List Nat) : Prop :=
  ∀ i, marks[i]? = some true → ∀ j ∈ targets i, j < marks.length →
    marks[j]? = some true ∨ j ∈ stack

/-- The final marks hold the first marks and the stack, and are closed under the targets. -/
theorem mark_covers {stack : List Nat} (covered : Covered targets marks stack) :
    (∀ j : Nat, marks[j]? = some true → (mark targets marks stack)[j]? = some true) ∧
      (∀ j ∈ stack, j < marks.length → (mark targets marks stack)[j]? = some true) ∧
      Covered targets (mark targets marks stack) [] := by
  induction marks, stack using mark.induct targets with
  | case1 marks =>
    rw [mark]
    exact ⟨fun _ marked => marked, fun _ mem => (nomatch mem), covered⟩
  | case2 marks i stack fresh ih =>
    have inside : i < marks.length := (List.getElem?_eq_some_iff.mp fresh).1
    have here : (marks.set i true)[i]? = some true := by simp [inside]
    have keeps : ∀ j : Nat, marks[j]? = some true → (marks.set i true)[j]? = some true := by
      intro j marked
      by_cases same : i = j
      · exact same ▸ here
      · rwa [List.getElem?_set_ne same]
    obtain ⟨marked, stacked, closed⟩ := ih (by
      intro k after j target within
      rw [length_set] at within
      rcases set_marked after with rfl | before
      · exact .inr (mem_append_left _ (mem_reverse.mpr target))
      · rcases covered k before j target within with there | pending
        · exact .inl (keeps j there)
        · rcases mem_cons.mp pending with rfl | later
          · exact .inl here
          · exact .inr (mem_append_right _ later))
    rw [mark, if_pos fresh]
    refine ⟨fun j before => marked j (keeps j before), fun j mem within => ?_, closed⟩
    rcases mem_cons.mp mem with rfl | later
    · exact marked j here
    · exact stacked j (mem_append_right _ later) (by rwa [length_set])
  | case3 marks i stack old ih =>
    have done : i < marks.length → marks[i]? = some true := by
      intro inside
      rw [List.getElem?_eq_getElem inside] at old ⊢
      cases value : marks[i] with
      | true => rfl
      | false => exact absurd (by rw [value]) old
    obtain ⟨marked, stacked, closed⟩ := ih (by
      intro k before j target within
      rcases covered k before j target within with there | pending
      · exact .inl there
      · rcases mem_cons.mp pending with rfl | later
        · exact .inl (done within)
        · exact .inr later)
    rw [mark, if_neg old]
    refine ⟨marked, fun j mem within => ?_, closed⟩
    rcases mem_cons.mp mem with rfl | later
    · exact marked j (done within)
    · exact stacked j later within

theorem mark_reached {count : Nat} {stack : List Nat}
    (bounded : ∀ i, i < count → ∀ j ∈ targets i, j < count) {i j : Nat} (start : i ∈ stack)
    (inside : i < count) (path : Relation.ReflTransGen (fun a b => b ∈ targets a) i j) :
    (mark targets (List.replicate count false) stack)[j]? = some true := by
  have bare : Covered targets (List.replicate count false) stack := by
    intro k marked
    rw [List.getElem?_replicate] at marked
    split at marked <;> cases marked
  obtain ⟨-, stacked, closed⟩ := mark_covers bare
  have length : (mark targets (List.replicate count false) stack).length = count := by
    rw [mark_length, length_replicate]
  induction path with
  | refl => exact stacked i start (by simpa using inside)
  | tail _ edge ih =>
    have within := (List.getElem?_eq_some_iff.mp ih).1
    rw [length] at within
    rcases closed _ ih _ edge (by rw [length]; exact bounded _ within _ edge) with there | none
    · exact there
    · cases none

end Zeo.Lib
