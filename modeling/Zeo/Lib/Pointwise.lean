import Mathlib.Data.List.Forall2

/-!
# Lists related element by element
-/

namespace Zeo.Lib

open List

variable {α β : Type} {r : α → β → Prop} {xs : List α} {ys : List β} {ps : List (α × α)}
  {qs : List (β × β)}

theorem forall₂_meets (related : Forall₂ r xs ys) {x : α} (mem : x ∈ xs) : ∃ y ∈ ys, r x y := by
  induction related with
  | nil => cases mem
  | cons here _ ih =>
    rcases mem_cons.mp mem with rfl | later
    · exact ⟨_, mem_cons_self, here⟩
    · obtain ⟨y, there, related⟩ := ih later
      exact ⟨y, mem_cons_of_mem _ there, related⟩

theorem forall₂_met (related : Forall₂ r xs ys) {y : β} (mem : y ∈ ys) : ∃ x, r x y := by
  induction related with
  | nil => cases mem
  | cons here _ ih =>
    rcases mem_cons.mp mem with rfl | later
    · exact ⟨_, here⟩
    · exact ih later

theorem forall₂_both {s : α → β → Prop} {xs' : List α} {ys' : List β}
    (first : Forall₂ r (xs ++ xs') (ys ++ ys')) (second : Forall₂ s xs ys) :
    Forall₂ (fun x y => r x y ∧ s x y) xs ys := by
  induction second with
  | nil => exact .nil
  | cons here _ ih =>
    cases first with
    | cons there rest => exact .cons ⟨there, here⟩ (ih rest)

theorem forall₂_behind {xs' : List α} {ys' : List β} (length : xs.length = ys.length)
    (related : Forall₂ r (xs ++ xs') (ys ++ ys')) : Forall₂ r xs' ys' := by
  have behind := forall₂_drop_append _ _ _ related
  rwa [← length, drop_left] at behind

/-- A relation between lists of pairs, and between what they list. -/
theorem forall₂_flatPairs :
    Forall₂ (fun p q => r p.1 q.1 ∧ r p.2 q.2) ps qs →
      Forall₂ r (ps.flatMap fun p => [p.1, p.2]) (qs.flatMap fun q => [q.1, q.2]) := by
  intro related
  induction related with
  | nil => exact .nil
  | cons here _ ih => exact .cons here.1 (.cons here.2 ih)

theorem forall₂_ofFlat (length : qs.length = ps.length)
    (related : Forall₂ r ((ps.flatMap fun p => [p.1, p.2]) ++ xs)
      ((qs.flatMap fun q => [q.1, q.2]) ++ ys)) :
    Forall₂ (fun p q => r p.1 q.1 ∧ r p.2 q.2) ps qs := by
  induction ps generalizing qs with
  | nil =>
    rw [eq_nil_of_length_eq_zero length]
    exact .nil
  | cons p ps ih =>
    cases qs with
    | nil => cases length
    | cons q qs =>
      cases related with
      | cons first rest =>
        cases rest with
        | cons second rest => exact .cons ⟨first, second⟩ (ih (Nat.succ.inj length) rest)

theorem flatMap_of_forall₂ {γ : Type} {f : α → List γ} {g : β → List γ} (related : Forall₂ r xs ys)
    (same : ∀ x ∈ xs, ∀ y, r x y → f x = g y) : xs.flatMap f = ys.flatMap g := by
  induction related with
  | nil => rfl
  | cons here _ ih =>
    obtain ⟨first, rest⟩ := forall_mem_cons.mp same
    rw [flatMap_cons, flatMap_cons, first _ here, ih rest]

variable {r : α → α → Prop}

theorem forall₂_symm_of_mem {xs ys : List α} (related : Forall₂ r xs ys)
    (symm : ∀ x ∈ xs, ∀ y, r x y → r y x) : Forall₂ r ys xs := by
  induction related with
  | nil => exact .nil
  | cons here _ ih =>
    obtain ⟨first, rest⟩ := forall_mem_cons.mp symm
    exact .cons (first _ here) (ih rest)

theorem forall₂_trans_of_mem {xs ys zs : List α} (related : Forall₂ r xs ys)
    (further : Forall₂ r ys zs) (trans : ∀ x ∈ xs, ∀ y z, r x y → r y z → r x z) :
    Forall₂ r xs zs := by
  induction related generalizing zs with
  | nil => exact further
  | cons here _ ih =>
    obtain ⟨first, rest⟩ := forall_mem_cons.mp trans
    cases further with
    | cons there further => exact .cons (first _ _ here there) (ih further rest)

end Zeo.Lib
