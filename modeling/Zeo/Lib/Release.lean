import Mathlib.Algebra.BigOperators.Group.List.Basic
import Mathlib.Algebra.Order.Ring.Int
import Mathlib.Data.List.Count
import Mathlib.Data.Set.Finite.Basic
import Mathlib.Logic.Relation

/-!
# Reference counting

Dropping a reference takes one off its target's count. At zero the target is freed and drops the
references it holds in turn. The counts of the nodes that are left always add up, so a set of nodes
that only its own members hold on to is freed whole, unless its references run in a circle.
-/

namespace Zeo.Lib

open List Function

variable {α : Type} [DecidableEq α]

structure Counted (α : Type) where
  alive : List α
  owners : α → Nat

def Counted.drop (s : Counted α) (a : α) : Counted α :=
  { s with owners := Function.update s.owners a (s.owners a - 1) }

/-- Drop references in order. A node whose last owner goes is freed, and drops the references it
holds before the next. -/
def Counted.release (refs : α → List α) (s : Counted α) : List α → Counted α
  | [] => s
  | a :: work =>
    if (s.drop a).owners a = 0 ∧ a ∈ s.alive then
      Counted.release refs { s.drop a with alive := s.alive.erase a } (refs a ++ work)
    else Counted.release refs (s.drop a) work
termination_by work => (s.alive.length, work.length)
decreasing_by
  · next freed =>
    exact Prod.Lex.left _ _ (by
      rw [length_erase_of_mem freed.2]
      exact Nat.sub_lt (length_pos_of_mem freed.2) Nat.one_pos)
  · exact Prod.Lex.right _ (by simp)

def held (refs : α → List α) (nodes : List α) (a : α) : Nat :=
  (nodes.map fun n => (refs n).count a).sum

theorem held_erase (refs : α → List α) {nodes : List α} {n : α} (a : α) (mem : n ∈ nodes) :
    held refs nodes a = (refs n).count a + held refs (nodes.erase n) a := by
  have same := (perm_cons_erase mem).map fun n => (refs n).count a
  exact same.sum_eq

structure Counted.Balanced (refs : α → List α) (pins : α → Nat) (s : Counted α)
    (work : List α) : Prop where
  /-- A count is what nodes hold, what waits to be dropped, and what is held from elsewhere. -/
  adds : ∀ a ∈ s.alive, s.owners a = held refs s.alive a + work.count a + pins a
  owned : ∀ a ∈ s.alive, 0 < s.owners a
  once : s.alive.Nodup

variable {refs : α → List α} {s : Counted α} {pins : α → Nat} {work : List α}

theorem Counted.Balanced.release (balanced : s.Balanced refs pins work) :
    (s.release refs work).Balanced refs pins [] := by
  induction s, work using Counted.release.induct refs with
  | case1 s => rwa [Counted.release]
  | case2 s a work freed ih =>
    rw [Counted.release, if_pos freed]
    have other : ∀ b ∈ s.alive.erase a, b ≠ a ∧ b ∈ s.alive := fun b mem =>
      (balanced.once.mem_erase_iff).mp mem
    apply ih
    refine ⟨?_, ?_, balanced.once.erase a⟩
    · intro b mem
      obtain ⟨apart, there⟩ := other b mem
      have before := balanced.adds b there
      rw [held_erase refs b freed.2, count_cons_of_ne apart.symm] at before
      change update s.owners a _ b = _
      rw [update_of_ne apart, before, count_append]
      dsimp only
      omega
    · intro b mem
      obtain ⟨apart, there⟩ := other b mem
      change 0 < update s.owners a _ b
      rw [update_of_ne apart]
      exact balanced.owned b there
  | case3 s a work kept ih =>
    rw [Counted.release, if_neg kept]
    apply ih
    refine ⟨?_, ?_, balanced.once⟩
    · intro b there
      have before := balanced.adds b there
      have positive := balanced.owned b there
      change update s.owners a _ b = held refs s.alive b + _ + _
      by_cases same : b = a
      · subst same
        rw [update_self]
        rw [count_cons_self] at before
        omega
      · rw [update_of_ne same]
        rwa [count_cons_of_ne (Ne.symm same)] at before
    · intro b there
      change 0 < update s.owners a _ b
      by_cases same : b = a
      · subst same
        exact Nat.pos_of_ne_zero fun zero => kept ⟨zero, there⟩
      · rw [update_of_ne same]
        exact balanced.owned b there

theorem Counted.release_alive {a : α} (alive : a ∈ (s.release refs work).alive) : a ∈ s.alive := by
  induction s, work using Counted.release.induct refs with
  | case1 s => rwa [Counted.release] at alive
  | case2 s b work freed ih =>
    rw [Counted.release, if_pos freed] at alive
    exact mem_of_mem_erase (ih alive)
  | case3 s b work kept ih =>
    rw [Counted.release, if_neg kept] at alive
    exact ih alive

def Counted.FreedAtZero (s : Counted α) (nodes : List α) : Prop :=
  ∀ a ∈ nodes, a ∉ s.alive → s.owners a = 0

/-- Dropping references frees nodes only when their last owner goes. -/
theorem Counted.FreedAtZero.release {nodes work : List α}
    (zero : s.FreedAtZero nodes) : (s.release refs work).FreedAtZero nodes := by
  induction s, work using Counted.release.induct refs with
  | case1 s => rwa [Counted.release]
  | case2 s a work freed ih =>
    rw [Counted.release, if_pos freed]
    apply ih
    intro b listed gone
    by_cases same : b = a
    · exact same ▸ freed.1
    · have before := zero b listed (fun there => gone ((mem_erase_of_ne same).mpr there))
      change update s.owners a _ b = 0
      rwa [update_of_ne same]
  | case3 s a work kept ih =>
    rw [Counted.release, if_neg kept]
    apply ih
    intro b listed gone
    have before := zero b listed gone
    change update s.owners a _ b = 0
    by_cases same : b = a
    · rw [same, update_self, ← same, before]
    · rwa [update_of_ne same]

omit [DecidableEq α] in
theorem wellFounded_of_acyclic (nodes : List α) {r : α → α → Prop}
    (within : ∀ n a, r n a → n ∈ nodes ∧ a ∈ nodes)
    (acyclic : ∀ a, ¬ Relation.TransGen r a a) : WellFounded r := by
  have trans : IsTrans { a // a ∈ nodes } fun n a => Relation.TransGen r n.1 a.1 :=
    ⟨fun _ _ _ first second => first.trans second⟩
  have irrefl : Std.Irrefl fun n a : { a // a ∈ nodes } => Relation.TransGen r n.1 a.1 :=
    ⟨fun a back => acyclic a.1 back⟩
  have finite : Finite { a // a ∈ nodes } := nodes.finite_toSet
  have paths := Finite.wellFounded_of_trans_of_irrefl
    fun n a : { a // a ∈ nodes } => Relation.TransGen r n.1 a.1
  have inside : ∀ a : { a // a ∈ nodes }, Acc r a.1 := by
    intro a
    induction a using paths.induction with
    | _ a ih => exact ⟨_, fun n edge => ih ⟨n, (within n a.1 edge).1⟩ (.single edge)⟩
  exact ⟨fun a => ⟨a, fun n edge => inside ⟨n, (within n a edge).1⟩⟩⟩

/-- A set that only its members hold, whose references do not run in a circle, is freed. -/
theorem Counted.Balanced.frees (balanced : s.Balanced refs pins []) (members : α → Prop)
    (unpinned : ∀ a, members a → pins a = 0)
    (closed : ∀ a, members a → ∀ n ∈ s.alive, a ∈ refs n → members n)
    (grounded : WellFounded fun n a => members n ∧ members a ∧ a ∈ refs n) (a : α)
    (mem : members a) : a ∉ s.alive := by
  induction a using grounded.induction with
  | _ a ih =>
    intro there
    have adds := balanced.adds a there
    have owned := balanced.owned a there
    rw [unpinned a mem, count_nil] at adds
    -- An owner of a member that is left is itself a member that is left.
    obtain ⟨n, alive, refers⟩ : ∃ n ∈ s.alive, a ∈ refs n := by
      by_contra none
      have nothing : held refs s.alive a = 0 := by
        apply sum_eq_zero
        intro x counted
        obtain ⟨n, alive, rfl⟩ := mem_map.mp counted
        exact count_eq_zero_of_not_mem fun refers => none ⟨n, alive, refers⟩
      omega
    have holder := closed a mem n alive refers
    exact ih n ⟨holder, mem, refers⟩ holder alive

end Zeo.Lib
