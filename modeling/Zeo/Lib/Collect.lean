import Mathlib.Data.List.Infix
import Mathlib.Data.List.Induction

/-!
# Lists without repetitions, in the order of first occurrence

Names are added to the end of a list one by one, and a name the list has already is passed over.
-/

namespace Zeo.Lib

open List

variable {α : Type} [DecidableEq α]

/-- A name is added unless it is listed. -/
def addNew (acc : List α) (x : α) : List α := if x ∈ acc then acc else acc ++ [x]

/-- Names are added in order. -/
def addAll (acc xs : List α) : List α := xs.foldl addNew acc

@[simp]
theorem addAll_nil (acc : List α) : addAll acc [] = acc := rfl

theorem addAll_append (acc xs ys : List α) :
    addAll acc (xs ++ ys) = addAll (addAll acc xs) ys := foldl_append

theorem addAll_snoc (acc xs : List α) (x : α) :
    addAll acc (xs ++ [x]) = addNew (addAll acc xs) x := addAll_append acc xs [x]

theorem addNew_of_mem {acc : List α} {x : α} (mem : x ∈ acc) : addNew acc x = acc :=
  if_pos mem

theorem addNew_of_not_mem {acc : List α} {x : α} (missing : x ∉ acc) :
    addNew acc x = acc ++ [x] := if_neg missing

@[simp]
theorem mem_addNew (acc : List α) (x y : α) : y ∈ addNew acc x ↔ y ∈ acc ∨ y = x := by
  unfold addNew
  split <;> grind

@[simp]
theorem mem_addAll (acc xs : List α) (y : α) : y ∈ addAll acc xs ↔ y ∈ acc ∨ y ∈ xs := by
  induction xs using List.reverseRecOn with
  | nil => simp
  | append_singleton xs x ih =>
    rw [addAll_snoc, mem_addNew, ih, mem_append, mem_singleton, or_assoc]

/-- What was listed stays in front. -/
theorem prefix_addAll (acc xs : List α) : acc <+: addAll acc xs := by
  induction xs using List.reverseRecOn with
  | nil => exact prefix_rfl
  | append_singleton xs x ih =>
    rw [addAll_snoc]
    refine ih.trans ?_
    unfold addNew
    split
    · exact prefix_rfl
    · exact prefix_append _ _

/-- Names that are all listed add nothing. -/
theorem addAll_of_subset {acc xs : List α} (known : ∀ x ∈ xs, x ∈ acc) : addAll acc xs = acc := by
  induction xs with
  | nil => rfl
  | cons x xs ih =>
    change addAll (addNew acc x) xs = acc
    obtain ⟨here, others⟩ := forall_mem_cons.mp known
    rw [addNew_of_mem here]
    exact ih others

/-- Filtering before or after is the same. -/
theorem filter_addAll (keep : α → Bool) (acc xs : List α) :
    (addAll acc xs).filter keep = addAll (acc.filter keep) (xs.filter keep) := by
  induction xs using List.reverseRecOn with
  | nil => rfl
  | append_singleton xs x ih =>
    rw [addAll_snoc, filter_append, addAll_append, ← ih]
    by_cases mem : x ∈ addAll acc xs
    · rw [addNew_of_mem mem]
      refine (addAll_of_subset fun y listed => ?_).symm
      grind
    · rw [addNew_of_not_mem mem, filter_append]
      cases kept : keep x with
      | false => simp [kept]
      | true =>
        have missing : x ∉ (addAll acc xs).filter keep :=
          fun listed => mem (mem_of_mem_filter listed)
        simp only [filter_cons, kept]
        exact (addNew_of_not_mem missing).symm

/-- Names collected behind fewer add what all of them add. -/
theorem addAll_addAll {acc fewer : List α} (xs : List α) (less : ∀ x ∈ fewer, x ∈ acc) :
    addAll acc (addAll fewer xs) = addAll acc xs := by
  induction xs using List.reverseRecOn with
  | nil => exact addAll_of_subset less
  | append_singleton xs x ih =>
    rw [addAll_snoc, addAll_snoc, ← ih]
    by_cases mem : x ∈ addAll fewer xs
    · rw [addNew_of_mem mem]
      exact (addNew_of_mem ((mem_addAll _ _ _).mpr (Or.inr mem))).symm
    · rw [addNew_of_not_mem mem, addAll_snoc]

/-- Collecting a result again in the place of its names gives it back. -/
theorem addAll_absorb (acc before names after : List α) :
    addAll acc (before ++ addAll acc (before ++ names ++ after) ++ after) =
      addAll acc (before ++ names ++ after) := by
  have less : ∀ x ∈ acc, x ∈ addAll acc before :=
    fun x mem => (mem_addAll _ _ _).mpr (Or.inl mem)
  have again : addAll (addAll acc before) before = addAll acc before :=
    addAll_of_subset fun x mem => (mem_addAll _ _ _).mpr (Or.inr mem)
  have middle : addAll acc (before ++ addAll acc (before ++ names ++ after)) =
      addAll acc (before ++ names ++ after) := by
    rw [addAll_append, addAll_addAll _ less, append_assoc, addAll_append, again, ← addAll_append]
  rw [addAll_append, middle]
  exact addAll_of_subset fun x mem => by simp [mem]

/-- Collecting list after list collects their concatenation. -/
theorem foldl_addAll {ι : Type} (names : ι → List α) (items : List ι) (acc : List α) :
    items.foldl (fun acc i => addAll acc (names i)) acc = addAll acc (items.flatMap names) := by
  induction items generalizing acc with
  | nil => rfl
  | cons i items ih => rw [foldl_cons, ih, flatMap_cons, addAll_append]

/-- Collecting the items first collects the same names, in the same order. -/
theorem addAll_flatMap_addAll {ι : Type} [DecidableEq ι] (names : ι → List α) (items : List ι) :
    addAll [] ((addAll [] items).flatMap names) = addAll [] (items.flatMap names) := by
  induction items using List.reverseRecOn with
  | nil => rfl
  | append_singleton items i ih =>
    rw [addAll_snoc, flatMap_append, addAll_append, ← ih, flatMap_singleton]
    by_cases mem : i ∈ addAll [] items
    · rw [addNew_of_mem mem]
      refine (addAll_of_subset fun x listed => ?_).symm
      exact (mem_addAll _ _ _).mpr (.inr (mem_flatMap.mpr ⟨i, mem, listed⟩))
    · rw [addNew_of_not_mem mem, flatMap_append, addAll_append, flatMap_singleton]

/-- Names may be replaced one to one before or after. -/
theorem map_addAll {β : Type} [DecidableEq β] {f : α → β} (injective : Function.Injective f)
    (xs : List α) : (addAll [] xs).map f = addAll [] (xs.map f) := by
  induction xs using List.reverseRecOn with
  | nil => rfl
  | append_singleton xs x ih =>
    rw [addAll_snoc, map_append, map_singleton, addAll_snoc, ← ih]
    by_cases mem : x ∈ addAll [] xs
    · rw [addNew_of_mem mem, addNew_of_mem (mem_map_of_mem mem)]
    · have missing : f x ∉ (addAll [] xs).map f := fun listed => by
        obtain ⟨y, listed, same⟩ := mem_map.mp listed
        exact mem (injective same ▸ listed)
      rw [addNew_of_not_mem mem, addNew_of_not_mem missing, map_append, map_singleton]

/-- The first answer among the names that are collected is the first among all of them. -/
theorem findSome?_addAll {β : Type} (answer : α → Option β) (acc xs : List α) :
    (addAll acc xs).findSome? answer = (acc.findSome? answer).or (xs.findSome? answer) := by
  induction xs using List.reverseRecOn with
  | nil => simp
  | append_singleton xs x ih =>
    rw [addAll_snoc, List.findSome?_append, ← Option.or_assoc, ← ih]
    by_cases mem : x ∈ addAll acc xs
    · rw [addNew_of_mem mem]
      cases found : (addAll acc xs).findSome? answer with
      | some b => rfl
      | none =>
        have silent := List.findSome?_eq_none_iff.mp found x mem
        simp [silent]
    · rw [addNew_of_not_mem mem, List.findSome?_append]

theorem idxOf?_of_starts {shorter longer : List α} {x : α} {i : Nat} (longerOf : shorter <+: longer)
    (index : shorter.idxOf? x = some i) : longer.idxOf? x = some i := by
  obtain ⟨rest, rfl⟩ := longerOf
  unfold List.idxOf? at *
  rw [List.findIdx?_append, index]
  rfl

end Zeo.Lib
