import Zeo.Lib.Canonical
import Zeo.Value.HashKey

/-!
# The order of keys

The pairs of a hash that is used as a key are sorted by the derived order of keys. It is a linear
order, in which two objects with their own `hash` are told apart by address, although equality asks
their `eql?`. The keys of two hashes with the same entries are therefore equal exactly when the
entries can be matched in the order of the sort.
-/

namespace Zeo.Value

open Ordering (then_eq_eq)
open Std.LawfulEqCmp (eq_of_compare)
open Std.OrientedCmp (eq_swap)
open Zeo.Lib.Canonical HashKey

variable {sid : Symbol → Nat} {a b : HashKey}

theorem HashKey.cmp_of_rank (differ : (a.rank == b.rank) = false) :
    cmp sid a b = compare a.rank b.rank := by
  cases a <;> cases b <;> first | rfl | cases differ

theorem HashKey.cmpPairs_eq (as bs : List (HashKey × HashKey)) :
    cmpPairs sid as bs = cmpList sid (children (.hash as)) (children (.hash bs)) := by
  induction as generalizing bs with
  | nil => cases bs <;> rfl
  | cons a as ih =>
    obtain ⟨key, value⟩ := a
    cases bs with
    | nil => rfl
    | cons b bs => simp [children_cons, cmpList, cmpPairs, cmpPair, ih, Ordering.then_assoc]

theorem HashKey.cmp_eq (a b : HashKey) :
    cmp sid a b = (compare a.rank b.rank).then ((cmpList sid a.children b.children).then
      ((cmp sid a.bare b.bare).then (compare a.object b.object))) := by
  have objects : ∀ s t : Addr, compare (some s) (some t) = compare s t := fun _ _ => rfl
  cases a <;> cases b <;> first
  | rfl
  | simp [cmp, children, bare, object, rank, cmpList, cmpPairs, cmpPairs_eq, objects,
      Ordering.then_assoc]

/-- Comparisons whose variants are not all the same fit together. -/
theorem HashKey.chain_of_ranks {a b c : HashKey}
    (differ : (a.rank == b.rank && b.rank == c.rank) = false) :
    Chain (cmp sid a b) (cmp sid b c) (cmp sid a c) := by
  have decided : ∀ o p q x y z : Ordering, Chain o p q → ¬(o = .eq ∧ p = .eq) →
      Chain (o.then x) (p.then y) (q.then z) := by decide
  rw [cmp_eq a b, cmp_eq b c, cmp_eq a c]
  refine decided _ _ _ _ _ _ (chain_of_trans compare a.rank b.rank c.rank) fun same => ?_
  rw [eq_of_compare same.1, eq_of_compare same.2] at differ
  simp at differ

theorem HashKey.bare_chain (a b c : HashKey) :
    Chain (cmp sid a.bare b.bare) (cmp sid b.bare c.bare) (cmp sid a.bare c.bare) := by
  cases a <;> cases b <;> try exact chain_of_ranks rfl
  all_goals cases c <;> try exact chain_of_ranks rfl
  all_goals simp [bare, cmp, cmpList, cmpPairs]
  all_goals first
  | exact chain_of_trans compare _ _ _
  | exact (chain_of_trans compare _ _ _).then (chain_of_trans compare _ _ _)
  | decide

/-- Comparisons of lists of keys fit together if those of the keys do. -/
theorem HashKey.cmpList_chain : ∀ as bs cs : List HashKey,
    (∀ a ∈ as, ∀ b c, Chain (cmp sid a b) (cmp sid b c) (cmp sid a c)) →
      Chain (cmpList sid as bs) (cmpList sid bs cs) (cmpList sid as cs)
  | [], [], [], _ => ⟨fun _ => rfl, fun _ => rfl, fun _ => rfl⟩
  | [], [], _ :: _, _ => ⟨fun _ => rfl, nofun, nofun⟩
  | [], _ :: _, [], _ | _ :: _, [], _ :: _, _ => ⟨nofun, nofun, nofun⟩
  | [], _ :: _, _ :: _, _ => ⟨nofun, fun _ => rfl, fun _ => rfl⟩
  | _ :: _, [], [], _ => ⟨nofun, fun _ => rfl, nofun⟩
  | _ :: _, _ :: _, [], _ => ⟨fun _ => rfl, nofun, fun same => same.symm⟩
  | _ :: as, b :: bs, c :: cs, chain =>
    have both := List.forall_mem_cons.mp chain
    (both.1 b c).then (cmpList_chain as bs cs both.2)

theorem HashKey.cmp_chain (a b c : HashKey) :
    Chain (cmp sid a b) (cmp sid b c) (cmp sid a c) := by
  induction a using induction generalizing b c with
  | step a ih =>
    rw [cmp_eq a b, cmp_eq b c, cmp_eq a c]
    exact (chain_of_trans compare _ _ _).then ((cmpList_chain _ _ _ ih).then
      ((bare_chain a b c).then (chain_of_trans compare _ _ _)))

theorem swap_then {o p o' p' : Ordering} (first : o = p.swap) (second : o' = p'.swap) :
    o.then o' = (p.then p').swap := by
  rw [first, second]
  cases p <;> rfl

theorem HashKey.bare_swap (a b : HashKey) :
    cmp sid a.bare b.bare = (cmp sid b.bare a.bare).swap := by
  cases a <;> cases b <;> try rfl
  all_goals simp only [bare, cmp, Std.compare_self, Ordering.eq_then]
  all_goals first
  | exact eq_swap
  | exact swap_then eq_swap eq_swap

/-- Turned round, a comparison of lists comes out opposite if those of the keys do. -/
theorem HashKey.cmpList_swap : ∀ as bs : List HashKey,
    (∀ a ∈ as, ∀ b, cmp sid a b = (cmp sid b a).swap) →
      cmpList sid as bs = (cmpList sid bs as).swap
  | [], [], _ | [], _ :: _, _ | _ :: _, [], _ => rfl
  | _ :: as, b :: bs, swap =>
    have both := List.forall_mem_cons.mp swap
    swap_then (both.1 b) (cmpList_swap as bs both.2)

theorem HashKey.cmp_swap (a b : HashKey) : cmp sid a b = (cmp sid b a).swap := by
  induction a using induction generalizing b with
  | step a ih =>
    rw [cmp_eq a b, cmp_eq b a]
    exact swap_then eq_swap (swap_then (cmpList_swap _ _ ih) (swap_then (bare_swap a b) eq_swap))

theorem HashKey.eq_of_cmpList : ∀ as bs : List HashKey,
    (∀ a ∈ as, ∀ b, cmp sid a b = .eq → a = b) → cmpList sid as bs = .eq → as = bs
  | [], [], _, _ => rfl
  | _ :: as, b :: bs, same, level => by
    obtain ⟨first, rest⟩ := then_eq_eq.mp level
    obtain ⟨here, later⟩ := List.forall_mem_cons.mp same
    rw [here b first, eq_of_cmpList as bs later rest]

theorem HashKey.not_eq_of_ranks (differ : (a.rank == b.rank) = false)
    (level : cmp sid a b = .eq) : False := by
  rw [cmp_of_rank differ] at level
  rw [eq_of_compare level] at differ
  simp at differ

section Level

variable (injective : Function.Injective sid)

include injective

theorem HashKey.eq_of_bare (level : cmp sid a.bare b.bare = .eq) :
    a.bare = b.bare := by
  cases a <;> cases b <;> first
  | rfl
  | exact (not_eq_of_ranks rfl level).elim
  | simp only [bare, cmp] at level
    simp_all [bare, injective.eq_iff]

theorem HashKey.eq_of_cmp (level : cmp sid a b = .eq) : a = b := by
  induction a using induction generalizing b with
  | step a ih =>
    rw [cmp_eq a b, then_eq_eq, then_eq_eq, then_eq_eq] at level
    obtain ⟨-, inside, own, objects⟩ := level
    exact eq_of_parts (eq_of_cmpList _ _ ih inside) (eq_of_bare injective own)
      (eq_of_compare objects)

end Level

instance : Std.TransCmp (cmpPair sid) where
  eq_swap := by
    rintro ⟨a, a'⟩ ⟨b, b'⟩
    exact swap_then (cmp_swap a b) (cmp_swap a' b')
  isLE_trans := by
    rintro ⟨a, a'⟩ ⟨b, b'⟩ ⟨c, c'⟩
    exact ((cmp_chain a b c).then (cmp_chain a' b' c')).isLE

/-- With one number a symbol, the order of pairs is antisymmetric. -/
theorem HashKey.lawful_cmpPair (injective : Function.Injective sid) :
    Std.LawfulEqCmp (cmpPair sid) where
  compare_self := Std.ReflCmp.compare_self
  eq_of_compare := by
    rintro ⟨a, a'⟩ ⟨b, b'⟩ level
    obtain ⟨keys, values⟩ := then_eq_eq.mp level
    rw [eq_of_cmp injective keys, eq_of_cmp injective values]

end Zeo.Value
