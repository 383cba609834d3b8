import Mathlib.Logic.Relation
import Zeo.Lib.Pointwise

/-!
# Rooted graphs

Graphs whose nodes carry a label and an ordered list of successors. Two rooted graphs are alike if
some relation relates the roots, relates only nodes with one label, and with two nodes relates their
successors in order. They are isomorphic if the relation is one to one as well.
-/

namespace Zeo.Lib

structure LabelledGraph (N L : Type) where
  label : N → L
  succ : N → List N

namespace LabelledGraph

variable {N L : Type}

def Reach (g : LabelledGraph N L) : N → N → Prop := Relation.ReflTransGen fun a b => b ∈ g.succ a

structure Keeps (g g' : LabelledGraph N L) (related : N → N → Prop) : Prop where
  label : ∀ n n', related n n' → g.label n = g'.label n'
  succ : ∀ n n', related n n' → List.Forall₂ related (g.succ n) (g'.succ n')

structure Matches (g g' : LabelledGraph N L) (related : N → N → Prop) : Prop
    extends Keeps g g' related where
  oneToOne : Relator.BiUnique related

/-- Two rooted graphs show the same along every path. -/
def Alike (g : LabelledGraph N L) (root : N) (g' : LabelledGraph N L) (root' : N) : Prop :=
  ∃ related, related root root' ∧ Keeps g g' related

/-- Two rooted graphs are the same but for the names of their nodes. -/
def Isomorphic (g : LabelledGraph N L) (root : N) (g' : LabelledGraph N L) (root' : N) : Prop :=
  ∃ related, related root root' ∧ Matches g g' related

theorem Matches.met {g g' : LabelledGraph N L} {related : N → N → Prop}
    (matched : Matches g g' related)
    {root root' n' : N} (roots : related root root') (reach : g'.Reach root' n') :
    ∃ n, related n n' := by
  induction reach with
  | refl => exact ⟨root, roots⟩
  | @tail b c _ edge ih =>
    obtain ⟨n, here⟩ := ih
    exact forall₂_met (matched.succ n b here) edge

end LabelledGraph

end Zeo.Lib
