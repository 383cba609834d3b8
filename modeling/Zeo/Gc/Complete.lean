import Mathlib.Algebra.Order.BigOperators.Group.List
import Mathlib.Algebra.Order.Ring.Nat
import Zeo.Gc.Sound

/-!
# The pass reclaims what nothing outside holds

A set of registered nodes is garbage when every reference to a member is held by a member. A pass
reclaims such a set exactly when no member is the target of a reference that a member owns and does
not report: the target's count then has an owner left over. Once the pass lets go, the owners of the
reclaimed nodes all go, unless a circle of references runs through procs, ranges and C structs only.
-/

namespace Zeo.Gc

open Zeo.Lib Zeo.Value List Prod

section Complete

variable {eql : UserEql} {im : ValueMap eql}

def concealed (nodes : Snapshot im) (a : Addr) : Nat :=
  (nodes.map fun n => n.2.hidden.count a).sum

def owned (nodes : Snapshot im) (a : Addr) : Nat :=
  (nodes.map fun n => n.2.refs.count a).sum

/-- Every owner of a node is a registered node or outside. -/
def Heap.OwnedBy (heap : Heap im) (outside : Addr → Nat) : Prop :=
  ∀ a s, (a, s) ∈ heap.snapshot → heap.owners a = owned heap.snapshot a + outside a

structure Garbage (heap : Heap im) (outside : Addr → Nat) (members : Addr → Prop) : Prop where
  registered : ∀ a, members a → ∃ s, (a, s) ∈ heap.snapshot
  unheld : ∀ a, members a → outside a = 0
  /-- A registered node that holds a member is a member. -/
  closed : ∀ a, members a → ∀ n s, (n, s) ∈ heap.snapshot → a ∈ s.refs → members n

/-- A member that a sweep cannot empty holds another. -/
def StuckRef (heap : Heap im) (members : Addr → Prop) (n a : Addr) : Prop :=
  members n ∧ members a ∧ ∃ s, (n, s) ∈ heap.snapshot ∧ ¬ s.Clearable ∧ a ∈ s.refs

theorem owned_eq (nodes : Snapshot im) (a : Addr) :
    owned nodes a = explained nodes a + concealed nodes a := by
  induction nodes with
  | nil => rfl
  | cons n rest ih =>
    simp only [owned, explained, concealed, map_cons, sum_cons, Strong.refs, count_append] at ih ⊢
    omega

section

variable {heap : Heap im} {outside : Addr → Nat} (ownedBy : heap.OwnedBy outside)

include ownedBy

theorem Heap.OwnedBy.countedBy :
    heap.CountedBy fun a => concealed heap.snapshot a + outside a := by
  intro a s listed
  rw [ownedBy a s listed, owned_eq, Nat.add_assoc]

theorem concealed_kept (fits : Fits heap.snapshot) {m n : Addr} {s t : Strong im}
    (listed : (m, t) ∈ heap.snapshot) (holder : (n, s) ∈ heap.snapshot) (conceals : m ∈ s.hidden) :
    m ∉ (finish heap heap.snapshot heap.marks).reclaimed := by
  have positive : 0 < concealed heap.snapshot m := by
    have one : 0 < s.hidden.count m := count_pos_iff.mpr conceals
    have least : s.hidden.count m ≤ concealed heap.snapshot m :=
      le_sum_of_mem (mem_map.mpr ⟨(n, s), holder, rfl⟩)
    omega
  exact reached_kept ownedBy.countedBy fits listed (Nat.add_pos_left positive _) .refl

variable {members : Addr → Prop} {s : Strong im}

theorem garbage_unmarked (fits : Fits heap.snapshot) (garbage : Garbage heap outside members)
    (unconcealed : ∀ m, members m → ∀ n s, (n, s) ∈ heap.snapshot → members n → m ∉ s.hidden)
    {i : Nat} {a : Addr} (here : heap.snapshot[i]? = some (a, s))
    (mem : members a) : heap.marks[i]? = some false := by
  have listed := heap.snapshot_listed
  -- The positions of the other nodes are closed under the edges, and hold every root.
  have others : ∀ j : Nat, heap.marks[j]? = some true →
      ∃ b t, heap.snapshot[j]? = some (b, t) ∧ ¬ members b := by
    intro j marked
    refine mark_within (fun j => ∃ b t, heap.snapshot[j]? = some (b, t) ∧ ¬ members b) ?_ _ _ ?_ ?_
      j marked
    · rintro k ⟨b, t, there, other⟩ l target
      rw [Edges.follow, (walk_walked _ fits).targets k _ there] at target
      obtain ⟨c, reports, found⟩ := mem_filterMap.mp target
      obtain ⟨u, at'⟩ := (indexOf_eq_some_iff listed.once c l).mp found
      refine ⟨c, u, at', fun isMember => other ?_⟩
      exact garbage.closed c isMember b t (mem_iff_getElem?.mpr ⟨k, there⟩)
        (mem_append_left _ reports)
    · intro k bare
      rw [List.getElem?_replicate] at bare
      split at bare <;> cases bare
    · intro k root
      obtain ⟨count, there, positive⟩ := (mem_roots_iff _ k).mp root
      have inside : k < heap.snapshot.length := by
        rw [← walk_length (fun addr => heap.owners addr + 1) heap.snapshot]
        exact (List.getElem?_eq_some_iff.mp there).1
      obtain ⟨⟨b, t⟩, at'⟩ : ∃ n, heap.snapshot[k]? = some n := ⟨_, List.getElem?_eq_getElem inside⟩
      refine ⟨b, t, at', ?_⟩
      intro isMember
      rw [walk_unexplained ownedBy.countedBy fits at', garbage.unheld _ isMember] at there
      have nothing : concealed heap.snapshot b = 0 := by
        apply sum_eq_zero
        intro x counted
        obtain ⟨⟨n, t⟩, holder, rfl⟩ := mem_map.mp counted
        apply count_eq_zero_of_not_mem
        intro conceals
        exact unconcealed _ isMember n t holder
          (garbage.closed _ isMember n t holder (mem_append_right _ conceals)) conceals
      rw [nothing] at there
      cases there
      exact absurd positive (by decide)
  have inside : i < heap.marks.length := by
    rw [heap.marks_length]
    exact (List.getElem?_eq_some_iff.mp here).1
  rw [List.getElem?_eq_getElem inside]
  cases value : heap.marks[i] with
  | false => rfl
  | true =>
    obtain ⟨b, t, there, other⟩ := others i (by rw [List.getElem?_eq_getElem inside, value])
    rw [here] at there
    cases there
    exact absurd mem other

end

variable {heap : Heap im}

theorem refsAt_sweep {i : Nat} {a : Addr} {live : Bool}
    (here : heap.snapshot[i]? = some (a, s)) (marked : heap.marks[i]? = some live) :
    refsAt (sweep heap.node (dead heap.snapshot heap.marks)) a =
      if live then s.refs else s.cleared.refs := by
  have listed := heap.snapshot_listed
  have reclaimed := mem_reclaimed_iff here
  rw [marked] at reclaimed
  cases live with
  | true =>
    have kept : a ∉ (dead heap.snapshot heap.marks).map fst :=
      fun mem => by cases reclaimed.mp mem
    have there := ((listed.members a s).mp (mem_iff_getElem?.mpr ⟨i, here⟩)).2
    rw [refsAt, sweep_kept _ kept, there]
    rfl
  | false =>
    obtain ⟨⟨b, t⟩, isDead, rfl⟩ := mem_map.mp (reclaimed.mpr rfl)
    cases found : (dead heap.snapshot heap.marks).find? (·.1 == b) with
    | none => exact absurd (beq_self_eq_true b) (List.find?_eq_none.mp found (b, t) isDead)
    | some n =>
      obtain ⟨c, u⟩ := n
      have same : c = b := by simpa using List.find?_some found
      subst same
      obtain ⟨j, there, -⟩ := (mem_dead_iff c u).mp (mem_of_find?_eq_some found)
      have first := ((listed.members c u).mp (mem_iff_getElem?.mpr ⟨j, there⟩)).2
      have second := ((listed.members c s).mp (mem_iff_getElem?.mpr ⟨i, here⟩)).2
      rw [first, Option.some.injEq] at second
      simp only [refsAt, sweep, found, second]
      rfl

/-- The references nodes own before the sweep are those left after it and those released. -/
theorem owned_split (lawful : im.Lawful) (a : Addr) (refs : Addr → List Addr)
    (nodes : Snapshot im) (live : List Bool) (length : live.length = nodes.length)
    (left : ∀ (i : Nat) n s mark, nodes[i]? = some (n, s) → live[i]? = some mark →
      refs n = if mark then s.refs else s.cleared.refs) :
    owned nodes a = held refs (nodes.map fst) a +
      ((dead nodes live).flatMap (·.2.released)).count a := by
  induction nodes generalizing live with
  | nil => simp [owned, held, dead]
  | cons n rest ih =>
    cases live with
    | nil => cases length
    | cons mark marks =>
      have later := ih marks (by simpa using length)
        (fun i n s mark there marked => left (i + 1) n s mark there marked)
      have first := left 0 n.1 n.2 mark rfl rfl
      have sweeps := n.2.refs_cleared lawful a
      simp only [owned, held, dead, map_cons, sum_cons, zip_cons_cons, filter_cons] at later ⊢
      rw [first]
      cases mark with
      | true =>
        simp only [Bool.not_true, Bool.false_eq_true, if_false, if_true]
        omega
      | false =>
        simp only [Bool.not_false, if_true, Bool.false_eq_true, if_false, map_cons,
          flatMap_cons, count_append]
        omega

variable {outside : Addr → Nat}

theorem finish_balanced (lawful : im.Lawful) (ownedBy : heap.OwnedBy outside) :
    Counted.Balanced (refsAt (sweep heap.node (dead heap.snapshot heap.marks))) outside
      ⟨heap.snapshot.map fst, fun addr =>
        heap.owners addr + if addr ∈ heap.snapshot.map fst then 1 else 0⟩
      ((dead heap.snapshot heap.marks).flatMap (·.2.released) ++ heap.snapshot.map fst) := by
  have once := heap.snapshot_listed.once
  refine ⟨?_, ?_, once⟩
  · intro a mem
    obtain ⟨⟨b, s⟩, listed, rfl⟩ := mem_map.mp mem
    have split := owned_split lawful b
      (refsAt (sweep heap.node (dead heap.snapshot heap.marks))) heap.snapshot heap.marks
      heap.marks_length (fun i n s mark here marked => refsAt_sweep here marked)
    have handle := count_eq_one_of_mem once mem
    dsimp only at mem handle ⊢
    rw [if_pos mem, ownedBy b s listed, count_append]
    omega
  · intro a mem
    dsimp only at mem ⊢
    rw [if_pos mem]
    exact Nat.succ_pos _

/-- A member holds nothing after the sweep, unless it is one a sweep cannot empty. -/
theorem member_stuck (lawful : im.Lawful)
    (registered : ∀ a, members a → ∃ s, (a, s) ∈ heap.snapshot)
    (swept : ∀ (i : Nat) a s, heap.snapshot[i]? = some (a, s) → members a →
      heap.marks[i]? = some false) {n a : Addr} (holder : members n) (mem : members a)
    (refers : a ∈ refsAt (sweep heap.node (dead heap.snapshot heap.marks)) n) :
    StuckRef heap members n a := by
  obtain ⟨s, listed⟩ := registered n holder
  obtain ⟨i, here⟩ := mem_iff_getElem?.mp listed
  rw [refsAt_sweep here (swept i n s here holder), if_neg Bool.false_ne_true] at refers
  refine ⟨holder, mem, s, listed, fun clearable => ?_, ?_⟩
  · rw [s.cleared_refs lawful clearable] at refers
    cases refers
  · have left := s.refs_cleared lawful a
    have positive := count_pos_iff.mpr refers
    exact count_pos_iff.mp (by omega)

theorem swept_freed (lawful : im.Lawful)
    (ownedBy : heap.OwnedBy outside) (garbage : Garbage heap outside members)
    (cycles : ∀ a, ¬ Relation.TransGen (StuckRef heap members) a a)
    (swept : ∀ (i : Nat) a s, heap.snapshot[i]? = some (a, s) → members a → heap.marks[i]? = some false)
    {m : Addr} (mem : members m) :
    (finish heap heap.snapshot heap.marks).owners m = 0 := by
  have balanced := (finish_balanced lawful ownedBy).release
  have grounded : WellFounded fun n a => members n ∧ members a ∧
      a ∈ refsAt (sweep heap.node (dead heap.snapshot heap.marks)) n := by
    refine wellFounded_of_acyclic (heap.snapshot.map fst) ?_ ?_
    · rintro n a ⟨holder, isMember, -⟩
      obtain ⟨s, first⟩ := garbage.registered n holder
      obtain ⟨t, second⟩ := garbage.registered a isMember
      exact ⟨mem_map.mpr ⟨_, first, rfl⟩, mem_map.mpr ⟨_, second, rfl⟩⟩
    · intro a circle
      refine cycles a (Relation.TransGen.mono ?_ a a circle)
      rintro n b ⟨holder, isMember, refers⟩
      exact member_stuck lawful garbage.registered swept holder isMember refers
  have closed : ∀ a, members a → ∀ n ∈ (finish heap heap.snapshot heap.marks).alive,
      a ∈ refsAt (sweep heap.node (dead heap.snapshot heap.marks)) n → members n := by
    intro a isMember n alive refers
    have listed := Counted.release_alive alive
    obtain ⟨⟨b, s⟩, there, rfl⟩ := mem_map.mp listed
    obtain ⟨i, here⟩ := mem_iff_getElem?.mp there
    have inside : i < heap.marks.length := by
      rw [heap.marks_length]
      exact (List.getElem?_eq_some_iff.mp here).1
    rw [refsAt_sweep here (List.getElem?_eq_getElem inside)] at refers
    refine garbage.closed a isMember b s there ?_
    split at refers
    · exact refers
    · have left := s.refs_cleared lawful a
      have positive := count_pos_iff.mpr refers
      exact count_pos_iff.mp (by omega)
  have gone := balanced.frees members garbage.unheld closed grounded m mem
  have zero : Counted.FreedAtZero (⟨heap.snapshot.map fst, fun addr =>
      heap.owners addr + if addr ∈ heap.snapshot.map fst then 1 else 0⟩ : Counted Addr)
      (heap.snapshot.map fst) := fun a listed absent => absurd listed absent
  obtain ⟨s, listed⟩ := garbage.registered m mem
  exact zero.release m (mem_map.mpr ⟨_, listed, rfl⟩) gone

/-- One pass reclaims every member of a garbage set and drops all its owners, exactly when no
member conceals a reference to a member. -/
theorem collect_reclaims_iff (lawful : im.Lawful) (heap : Heap im) (outside : Addr → Nat)
    (ownedBy : heap.OwnedBy outside) (fits : Fits heap.snapshot) (members : Addr → Prop)
    (garbage : Garbage heap outside members)
    (cycles : ∀ a, ¬ Relation.TransGen (StuckRef heap members) a a) :
    (∃ pass, collect true true heap = some pass ∧
      ∀ m, members m → m ∈ pass.reclaimed ∧ pass.owners m = 0) ↔
    ∀ m, members m → ∀ n s, (n, s) ∈ heap.snapshot → members n → m ∉ s.hidden := by
  by_cases none : heap.snapshot = []
  · have nobody : ∀ m, ¬ members m := by
      intro m member
      obtain ⟨s, listed⟩ := garbage.registered m member
      rw [none] at listed
      cases listed
    exact ⟨fun _ m member => absurd member (nobody m),
      fun _ => ⟨idle heap, by simp [collect, none], fun m member => absurd member (nobody m)⟩⟩
  · constructor
    · rintro ⟨pass, collected, reclaims⟩ m member n s holder _ conceals
      rw [collect_eq fits none, Option.some.injEq] at collected
      obtain ⟨t, listed⟩ := garbage.registered m member
      refine concealed_kept ownedBy fits listed holder conceals ?_
      rw [collected]
      exact (reclaims m member).1
    · intro unconcealed
      have swept : ∀ (i : Nat) a s, heap.snapshot[i]? = some (a, s) → members a →
          heap.marks[i]? = some false := fun i a s here member =>
        garbage_unmarked ownedBy fits garbage unconcealed here member
      refine ⟨_, collect_eq fits none, fun m member => ⟨?_, ?_⟩⟩
      · obtain ⟨s, listed⟩ := garbage.registered m member
        obtain ⟨i, here⟩ := mem_iff_getElem?.mp listed
        exact (mem_reclaimed_iff here).mpr (swept i m s here member)
      · exact swept_freed lawful ownedBy garbage cycles swept member

end Complete

/-- The hash of a ring: its one key is the object of the ring, stored under a projection. -/
def ringHash (key : HashKey) : RHashData plainMap :=
  let data : RHashData plainMap := RHashData.new .nil
  { data with repr := .small [(key, (.object 0, .nil))] }

/-- An object with an instance variable that holds a hash, whose key is the object. -/
def ringHeap (key : HashKey) : Heap plainMap where
  registry := [0, 1]
  node
    | 0 => some (.object (.slots [.hash 1] []))
    | 1 => some (.hash (ringHash key))
    | _ => none
  owners
    | 0 => 1 + (keyProbes key).count 0
    | 1 => 1 + (keyProbes key).count 1
    | _ => 0

def InRing (a : Addr) : Prop := a = 0 ∨ a = 1

variable (key : HashKey)

theorem ringHeap_snapshot : (ringHeap key).snapshot =
    [(0, .object (.slots [.hash 1] [])), (1, .hash (ringHash key))] := rfl

theorem ringHash_refs :
    (Strong.hash (ringHash key)).refs = 0 :: keyProbes key := by
  change [0] ++ [] ++ (keyProbes key ++ []) = _
  simp

theorem ringHeap_ownedBy : (ringHeap key).OwnedBy fun _ => 0 := by
  have object : (Strong.object (.slots [.hash 1] []) : Strong plainMap).refs = [1] := rfl
  intro a s listed
  rw [ringHeap_snapshot] at listed ⊢
  simp only [owned, map_cons, object, ringHash_refs]
  simp only [mem_cons, not_mem_nil, or_false] at listed
  rcases listed with ⟨rfl, -⟩ | ⟨rfl, -⟩
  · simp [ringHeap, Nat.add_comm]
  · simp [ringHeap]

theorem ring_garbage : Garbage (ringHeap key) (fun _ => 0) InRing where
  registered a mem := by
    rcases mem with rfl | rfl
    · exact ⟨_, mem_cons_self⟩
    · exact ⟨_, mem_cons_of_mem _ mem_cons_self⟩
  unheld _ _ := rfl
  closed a _ n s listed _ := by
    rw [ringHeap_snapshot] at listed
    simp only [mem_cons, not_mem_nil, or_false] at listed
    rcases listed with ⟨rfl, -⟩ | ⟨rfl, -⟩
    · exact .inl rfl
    · exact .inr rfl

theorem ring_cycles (a : Addr) :
    ¬ Relation.TransGen (StuckRef (ringHeap key) InRing) a a := by
  intro circle
  obtain ⟨b, -, -, -, s, listed, stuck, -⟩ := Relation.TransGen.tail'_iff.mp circle
  rw [ringHeap_snapshot] at listed
  simp only [mem_cons, not_mem_nil, or_false] at listed
  rcases listed with ⟨-, rfl⟩ | ⟨-, rfl⟩
  · exact stuck trivial
  · exact stuck trivial

theorem ring_fits : Fits (ringHeap key).snapshot where
  positions := show ∀ t ∈ [1, 0], t < 2 ^ 32 by decide
  edges := show 2 < 2 ^ 32 by decide

/-- When the object's class defines `hash`, the ring is never reclaimed. -/
theorem keyed_ring_leaks :
    (ringHeap (.computed (.int 1) 0)).OwnedBy (fun _ => 0) ∧
      Garbage (ringHeap (.computed (.int 1) 0)) (fun _ => 0) InRing ∧
      (∀ a, ¬ Relation.TransGen (StuckRef (ringHeap (.computed (.int 1) 0)) InRing) a a) ∧
      ¬ ∃ pass, collect true true (ringHeap (.computed (.int 1) 0)) = some pass ∧
        ∀ m, InRing m → m ∈ pass.reclaimed := by
  refine ⟨ringHeap_ownedBy _, ring_garbage _, ring_cycles _, ?_⟩
  rintro ⟨pass, collected, reclaims⟩
  rw [collect_eq (ring_fits _) (by rw [ringHeap_snapshot]; exact cons_ne_nil _ _),
    Option.some.injEq] at collected
  have conceals : 0 ∈ (Strong.hash (ringHash (.computed (.int 1) 0))).hidden := mem_cons_self
  refine concealed_kept (ringHeap_ownedBy _) (ring_fits _) mem_cons_self
    (mem_cons_of_mem _ mem_cons_self) conceals ?_
  rw [collected]
  exact reclaims 0 (.inl rfl)

theorem collect_reclaims_iff_identity :
    (ringHeap (.identity 0)).OwnedBy (fun _ => 0) ∧ Fits (ringHeap (.identity 0)).snapshot ∧
      Garbage (ringHeap (.identity 0)) (fun _ => 0) InRing ∧
      ∃ pass, collect true true (ringHeap (.identity 0)) = some pass ∧
        ∀ m, InRing m → m ∈ pass.reclaimed ∧ pass.owners m = 0 := by
  refine ⟨ringHeap_ownedBy _, ring_fits _, ring_garbage _,
    (collect_reclaims_iff (listIndexMap_lawful _ _) (ringHeap (.identity 0)) (fun _ => 0)
      (ringHeap_ownedBy _) (ring_fits _) InRing (ring_garbage _) (ring_cycles _)).mpr ?_⟩
  intro m _ n s listed _ conceals
  rw [ringHeap_snapshot] at listed
  simp only [mem_cons, not_mem_nil, or_false] at listed
  rcases listed with ⟨-, rfl⟩ | ⟨-, rfl⟩
  · cases conceals
  · cases conceals

end Zeo.Gc
