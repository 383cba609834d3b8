import Mathlib

/-!
# Lists compared in sorted order

Two lists whose order does not matter can be compared by sorting both. Under equality that is
sound. Under a coarser relation it depends on the order: the sorted lists are related element by
element exactly when some matching of the two lists keeps the order.
-/

namespace Zeo.Lib.Canonical

open List

/-- Three comparisons, of a first value with a second, of the second with a third and of the first
with the third, that fit together as those of a linear order do. -/
def Chain (first second whole : Ordering) : Prop :=
  (first = .eq → whole = second) ∧ (second = .eq → whole = first) ∧
    (first = second → whole = first)

instance (first second whole : Ordering) : Decidable (Chain first second whole) :=
  inferInstanceAs (Decidable (_ ∧ _ ∧ _))

theorem Chain.then {o p q o' p' q' : Ordering} (left : Chain o p q) (right : Chain o' p' q') :
    Chain (o.then o') (p.then p') (q.then q') := by
  revert o p q o' p' q'
  decide

theorem chain_of_trans {α : Type} (cmp : α → α → Ordering) [Std.TransCmp cmp] (a b c : α) :
    Chain (cmp a b) (cmp b c) (cmp a c) := by
  refine ⟨Std.TransCmp.congr_left, fun same => (Std.TransCmp.congr_right same).symm,
    fun same => ?_⟩
  cases first : cmp a b with
  | eq => exact Std.TransCmp.eq_trans first (same.symm.trans first)
  | lt => exact Std.TransCmp.lt_trans first (same.symm.trans first)
  | gt => exact Std.TransCmp.gt_trans first (same.symm.trans first)

theorem Chain.isLE {o p q : Ordering} (chain : Chain o p q) (first : o.isLE) (second : p.isLE) :
    q.isLE := by
  revert o p q
  decide

section Sorting

variable {α : Type} (cmp : α → α → Ordering)

def sort (xs : List α) : List α := xs.mergeSort fun a b => (cmp a b).isLE

/-- A matching keeps the order: of two pairs, the one that comes first on the left does not come
second on the right. -/
def KeepsOrder (zs : List (α × α)) : Prop :=
  ∀ x ∈ zs, ∀ y ∈ zs, cmp x.1 y.1 = .lt → cmp x.2 y.2 ≠ .gt

/-- Pairs matched between two lists, whatever the orders of the lists. -/
structure Matching (related : α → α → Prop) (xs ys : List α) (zs : List (α × α)) : Prop where
  left : (zs.map Prod.fst).Perm xs
  right : (zs.map Prod.snd).Perm ys
  related : ∀ z ∈ zs, related z.1 z.2

theorem sort_perm (xs : List α) : (sort cmp xs).Perm xs := mergeSort_perm _ _

variable [Std.TransCmp cmp]

theorem pairwise_sort (xs : List α) : (sort cmp xs).Pairwise fun a b => (cmp a b).isLE = true := by
  refine pairwise_mergeSort (fun a b c => Std.TransCmp.isLE_trans) (fun a b => ?_) xs
  have swapped : cmp b a = (cmp a b).swap := Std.OrientedCmp.eq_swap
  rw [swapped]
  cases cmp a b <;> rfl

theorem sort_eq_of_perm [Std.LawfulEqCmp cmp] {xs ys : List α} (perm : ys.Perm xs)
    (ordered : ys.Pairwise fun a b => (cmp a b).isLE = true) : sort cmp xs = ys := by
  refine List.Perm.eq_of_pairwise (fun a b _ _ before after => ?_) (pairwise_sort cmp xs) ordered
    ((sort_perm cmp xs).trans perm.symm)
  exact Std.LawfulEqCmp.eq_of_compare (Std.OrientedCmp.isLE_antisymm before after)

/-- The order of matched pairs by the left side, and by the right side where the left ones are
equal. -/
def onBoth (x y : α × α) : Ordering := (cmp x.1 y.1).then (cmp x.2 y.2)

instance : Std.TransCmp (onBoth cmp) where
  eq_swap {x y} := by
    have left : cmp x.1 y.1 = (cmp y.1 x.1).swap := Std.OrientedCmp.eq_swap
    have right : cmp x.2 y.2 = (cmp y.2 x.2).swap := Std.OrientedCmp.eq_swap
    unfold onBoth
    rw [left, right]
    cases cmp y.1 x.1 <;> rfl
  isLE_trans {x y z} :=
    ((chain_of_trans cmp x.1 y.1 z.1).then (chain_of_trans cmp x.2 y.2 z.2)).isLE

/-- Sorted lists are related element by element exactly when a matching keeps the order. -/
theorem forall₂_sort_iff [Std.LawfulEqCmp cmp] {related : α → α → Prop} {xs ys : List α} :
    List.Forall₂ related (sort cmp xs) (sort cmp ys) ↔
      ∃ zs, Matching related xs ys zs ∧ KeepsOrder cmp zs := by
  constructor
  · intro all
    have lengths := all.length_eq
    have lefts : ((sort cmp xs).zip (sort cmp ys)).map Prod.fst = sort cmp xs :=
      map_fst_zip (Nat.le_of_eq lengths)
    have rights : ((sort cmp xs).zip (sort cmp ys)).map Prod.snd = sort cmp ys :=
      map_snd_zip (Nat.le_of_eq lengths.symm)
    refine ⟨(sort cmp xs).zip (sort cmp ys), ⟨?_, ?_, ?_⟩, ?_⟩
    · rw [lefts]
      exact sort_perm cmp xs
    · rw [rights]
      exact sort_perm cmp ys
    · intro z mem
      exact (forall₂_iff_zip.mp all).2 mem
    · -- Of two different places, the one in front is not above the other on either side.
      have leftOrder := pairwise_sort cmp xs
      have rightOrder := pairwise_sort cmp ys
      rw [← lefts, pairwise_map] at leftOrder
      rw [← rights, pairwise_map] at rightOrder
      intro x isX y isY before
      obtain ⟨i, iLt, rfl⟩ := getElem_of_mem isX
      obtain ⟨j, jLt, rfl⟩ := getElem_of_mem isY
      rcases Nat.lt_trichotomy i j with less | same | more
      · have le := pairwise_iff_getElem.mp rightOrder i j iLt jLt less
        intro above
        rw [above] at le
        cases le
      · subst same
        exact absurd (before.symm.trans Std.ReflCmp.compare_self) (by decide)
      · have le := pairwise_iff_getElem.mp leftOrder j i jLt iLt more
        rw [Std.OrientedCmp.gt_of_lt before] at le
        cases le
  · rintro ⟨zs, matching, keeps⟩
    have ordered := pairwise_sort (onBoth cmp) zs
    have perm := sort_perm (onBoth cmp) zs
    have lefts : sort cmp xs = (sort (onBoth cmp) zs).map Prod.fst := by
      refine sort_eq_of_perm cmp ((perm.map _).trans matching.left) ?_
      rw [pairwise_map]
      refine ordered.imp fun {x y} le => ?_
      unfold onBoth at le
      cases first : cmp x.1 y.1 with
      | lt | eq => rfl
      | gt =>
        rw [first] at le
        cases le
    have rights : sort cmp ys = (sort (onBoth cmp) zs).map Prod.snd := by
      refine sort_eq_of_perm cmp ((perm.map _).trans matching.right) ?_
      rw [pairwise_map]
      refine ordered.imp_of_mem fun {x y} isX isY le => ?_
      unfold onBoth at le
      cases first : cmp x.1 y.1 with
      | lt =>
        have notAbove := keeps x (perm.mem_iff.mp isX) y (perm.mem_iff.mp isY) first
        cases second : cmp x.2 y.2 with
        | lt | eq => rfl
        | gt => exact absurd second notAbove
      | eq =>
        rw [first] at le
        exact le
      | gt =>
        rw [first] at le
        cases le
    rw [lefts, rights, forall₂_map_left_iff, forall₂_map_right_iff, forall₂_same]
    exact fun z mem => matching.related z (perm.mem_iff.mp mem)

end Sorting

end Zeo.Lib.Canonical
