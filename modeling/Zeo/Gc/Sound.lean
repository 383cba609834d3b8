import Zeo.Gc.Collect
import Zeo.Value.HashRun

/-!
# The pass keeps what is referenced from outside

When every owner of a node is a reference some registered node reports or one held from elsewhere,
a node with an outside reference keeps its contents, and so does every node it reaches. The heap has
to fit the tables of the pass: the offsets of a wider one wrap around, and targets are lost.
-/

namespace Zeo.Gc

open Zeo.Lib Zeo.Value List

section Sound

variable {eql : UserEql} {im : ValueMap eql}

def Heap.Refers (heap : Heap im) (a b : Addr) : Prop :=
  ∃ s t, (a, s) ∈ heap.snapshot ∧ (b, t) ∈ heap.snapshot ∧ b ∈ s.reported

/-- Every owner of a node is a reported reference or held from outside. -/
def Heap.CountedBy (heap : Heap im) (outside : Addr → Nat) : Prop :=
  ∀ a s, (a, s) ∈ heap.snapshot → heap.owners a = explained heap.snapshot a + outside a

variable {heap : Heap im} {s : Strong im} {outside : Addr → Nat} {i : Nat}

theorem walk_unexplained (counted : heap.CountedBy outside)
    (fits : Fits heap.snapshot) {a : Addr} (here : heap.snapshot[i]? = some (a, s)) :
    (walk (fun addr => heap.owners addr + 1) heap.snapshot).unexplained[i]? =
      some (outside a : Int) := by
  have listed := heap.snapshot_listed
  have balance := counted a s (mem_iff_getElem?.mpr ⟨i, here⟩)
  rw [(walk_walked _ fits).unexplained i (a, s) here, count_allEdges listed.once here, balance,
    Option.some.injEq]
  omega

theorem follow_bounded (fits : Fits heap.snapshot) (i : Nat) (inside : i < heap.snapshot.length) :
    ∀ j ∈ (walk (fun addr => heap.owners addr + 1) heap.snapshot).follow i,
      j < heap.snapshot.length := by
  intro j target
  rw [Edges.follow, (walk_walked _ fits).targets i _ (List.getElem?_eq_getElem inside)] at target
  have edge : j ∈ allEdges (indexOf heap.snapshot) heap.snapshot :=
    mem_flatMap.mpr ⟨heap.snapshot[i], getElem_mem inside, target⟩
  exact mem_allEdges edge

theorem refers_follow (fits : Fits heap.snapshot) {a b : Addr}
    (path : Relation.ReflTransGen heap.Refers a b) (here : heap.snapshot[i]? = some (a, s)) :
    ∃ j t, heap.snapshot[j]? = some (b, t) ∧ Relation.ReflTransGen
      (fun i j => j ∈ (walk (fun addr => heap.owners addr + 1) heap.snapshot).follow i) i j := by
  have listed := heap.snapshot_listed
  induction path with
  | refl => exact ⟨i, s, here, .refl⟩
  | tail _ edge ih =>
    obtain ⟨j, t, there, walked⟩ := ih
    obtain ⟨source, target, isSource, isTarget, reports⟩ := edge
    obtain ⟨k, found⟩ := mem_iff_getElem?.mp isTarget
    have same : t = source := by
      have first := ((listed.members _ _).mp (mem_iff_getElem?.mpr ⟨j, there⟩)).2
      have second := ((listed.members _ _).mp isSource).2
      rw [first] at second
      exact Option.some.inj second
    refine ⟨k, target, found, walked.tail ?_⟩
    rw [Edges.follow, (walk_walked _ fits).targets j _ there]
    apply mem_filterMap.mpr
    exact ⟨_, same ▸ reports, (indexOf_eq_some_iff listed.once _ k).mpr ⟨target, found⟩⟩

def Heap.marks (heap : Heap im) : List Bool :=
  mark (walk (fun addr => heap.owners addr + 1) heap.snapshot).follow
    (List.replicate heap.snapshot.length false)
    (walk (fun addr => heap.owners addr + 1) heap.snapshot).roots

theorem Heap.marks_length (heap : Heap im) : heap.marks.length = heap.snapshot.length := by
  rw [Heap.marks, mark_length, length_replicate]

theorem collect_eq (fits : Fits heap.snapshot) (inhabited : heap.snapshot ≠ []) :
    collect true true heap = some (finish heap heap.snapshot heap.marks) := by
  have live := (walk_walked (fun addr => heap.owners addr + 1) fits).live
  have nonempty : heap.snapshot.isEmpty = false := by simpa using inhabited
  simp only [collect, nonempty, live]
  rfl

theorem mem_reclaimed_iff {a : Addr} (here : heap.snapshot[i]? = some (a, s)) :
    a ∈ (finish heap heap.snapshot heap.marks).reclaimed ↔ heap.marks[i]? = some false := by
  have once := heap.snapshot_listed.once
  constructor
  · intro mem
    obtain ⟨⟨b, u⟩, isDead, rfl⟩ := mem_map.mp mem
    obtain ⟨k, found, clear⟩ := (mem_dead_iff b u).mp isDead
    have first := (indexOf_eq_some_iff once b k).mpr ⟨u, found⟩
    have second := (indexOf_eq_some_iff once b i).mpr ⟨s, here⟩
    rw [first, Option.some.injEq] at second
    rwa [second] at clear
  · intro clear
    exact mem_map.mpr ⟨(a, s), (mem_dead_iff a s).mpr ⟨i, here, clear⟩, rfl⟩

theorem reached_kept (counted : heap.CountedBy outside)
    (fits : Fits heap.snapshot) {root a : Addr} (listed : (root, s) ∈ heap.snapshot)
    (pinned : 0 < outside root) (path : Relation.ReflTransGen heap.Refers root a) :
    a ∉ (finish heap heap.snapshot heap.marks).reclaimed := by
  obtain ⟨i, here⟩ := mem_iff_getElem?.mp listed
  obtain ⟨j, t, there, walked⟩ := refers_follow fits path here
  have start : i ∈ (walk (fun addr => heap.owners addr + 1) heap.snapshot).roots := by
    rw [mem_roots_iff]
    exact ⟨_, walk_unexplained counted fits here, by exact_mod_cast pinned⟩
  have marked := mark_reached (follow_bounded fits) start
    (List.getElem?_eq_some_iff.mp here).1 walked
  rw [mem_reclaimed_iff there]
  intro clear
  rw [Heap.marks, marked] at clear
  cases clear

/-- A pass clears a node only if no node with an outside reference reaches it, and a node so
reached keeps its contents. -/
theorem collect_keeps_reachable (recording stopped : Bool) (heap : Heap im) (outside : Addr → Nat)
    (counted : heap.CountedBy outside) (fits : Fits heap.snapshot) :
    ∃ pass, collect recording stopped heap = some pass ∧
      ∀ root s a, (root, s) ∈ heap.snapshot → 0 < outside root →
        Relation.ReflTransGen heap.Refers root a →
          a ∉ pass.reclaimed ∧ pass.node a = heap.node a := by
  by_cases runs : (recording && stopped) = true
  · by_cases none : heap.snapshot = []
    · refine ⟨idle heap, by simp [collect, none], fun root s a listed => ?_⟩
      rw [none] at listed
      cases listed
    · obtain ⟨rfl, rfl⟩ : recording = true ∧ stopped = true := by simpa using runs
      refine ⟨_, collect_eq fits none, fun root s a listed pinned path => ?_⟩
      have kept := reached_kept counted fits listed pinned path
      exact ⟨kept, sweep_kept heap.node kept⟩
  · exact ⟨idle heap, by simp [collect, runs], fun root s a _ _ _ => ⟨by simp [idle], rfl⟩⟩

end Sound

/-- An array with an outside reference that holds `count` references to a second one, which
holds nil. -/
def wideHeap (count : Nat) : Heap plainMap where
  registry := [0, 1]
  node
    | 0 => some (.array (List.replicate count (.array 1)))
    | 1 => some (.array [.nil])
    | _ => none
  owners
    | 0 => 1
    | 1 => count
    | _ => 0

def wideOutside : Addr → Nat
  | 0 => 1
  | _ => 0

variable (count : Nat)

theorem wideHeap_snapshot : (wideHeap count).snapshot =
    [(0, .array (List.replicate count (.array 1))), (1, .array [.nil])] := rfl

/-- Its first array reports the second as often as it holds it. -/
theorem wide_reported :
    (Strong.array (List.replicate count (.array 1)) : Strong plainMap).reported =
      List.replicate count 1 := by
  simp [Strong.reported, Strong.gcVisit, Strong.gcCells, filterMap_replicate, valueAddr]

theorem wide_quiet : (Strong.array [.nil] : Strong plainMap).reported = [] := rfl

theorem wideHeap_countedBy : (wideHeap count).CountedBy wideOutside := by
  intro a s listed
  rw [wideHeap_snapshot] at listed ⊢
  simp only [explained, map_cons, wide_reported, wide_quiet, count_replicate]
  simp only [mem_cons, not_mem_nil, or_false] at listed
  rcases listed with ⟨rfl, -⟩ | ⟨rfl, -⟩
  · rfl
  · simp [wideHeap, wideOutside]

theorem wide_edges :
    edgesOf (indexOf (wideHeap count).snapshot)
        (Strong.array (List.replicate count (.array 1)) : Strong plainMap) =
      List.replicate count 1 := by
  have second : indexOf (wideHeap count).snapshot 1 = some 1 := rfl
  rw [edgesOf, wide_reported]
  simp [second]

/-- When the offset of the second run wraps to zero, the first run is lost. -/
theorem wideHeap_walk (wraps : u32 count = 0) :
    let e := walk (fun addr => (wideHeap count).owners addr + 1) (wideHeap count).snapshot
    e.unexplained = [1, 0] ∧ e.targetsOf 0 = some [] := by
  have total : allEdges (indexOf (wideHeap count).snapshot) (wideHeap count).snapshot =
      List.replicate count 1 := by
    rw [allEdges]
    conv_lhs => rw [wideHeap_snapshot count]
    simp only [flatMap_cons, flatMap_nil, append_nil]
    rw [← wideHeap_snapshot, wide_edges, edgesOf, wide_quiet, filterMap_nil, append_nil]
  obtain ⟨targets, starts, unexplained⟩ :=
    walk_spec (fun addr => (wideHeap count).owners addr + 1) (wideHeap count).snapshot
  rw [total] at unexplained
  intro e
  constructor
  · apply ext_getElem?
    intro j
    rcases j with _ | _ | j
    · rw [unexplained 0, count_replicate]
      rfl
    · rw [unexplained 1, count_replicate_self]
      change some (((count + 1) : Int) - 1 - count) = some 0
      rw [Option.some.injEq]
      omega
    · rw [unexplained (j + 2)]
      rfl
  · have first : e.starts[0]? = some 0 := starts 0 (Nat.zero_le _)
    have second := starts 1 (by simp [wideHeap_snapshot])
    have run : allEdges (indexOf (wideHeap count).snapshot) ((wideHeap count).snapshot.take 1) =
        List.replicate count 1 := by
      rw [allEdges]
      conv_lhs => rw [wideHeap_snapshot count]
      simp only [take_succ_cons, take_zero, flatMap_cons, flatMap_nil, append_nil]
      rw [← wideHeap_snapshot, wide_edges]
    rw [run, length_replicate, wraps] at second
    simp only [Edges.targetsOf, first, show e.starts[1]? = some 0 from second]
    simp

theorem wideHeap_collect (wraps : u32 count = 0) :
    ∃ pass, collect true true (wideHeap count) = some pass ∧ pass.reclaimed = [1] ∧
      pass.node 1 = some (.array []) := by
  obtain ⟨unexplained, targets⟩ := wideHeap_walk count wraps
  have roots : (walk (fun addr => (wideHeap count).owners addr + 1)
      (wideHeap count).snapshot).roots = [0] := by
    rw [Edges.roots, unexplained]
    rfl
  have live : (walk (fun addr => (wideHeap count).owners addr + 1)
      (wideHeap count).snapshot).live = some [true, false] := by
    have marks : mark (fun i => ((walk (fun addr => (wideHeap count).owners addr + 1)
        (wideHeap count).snapshot).targetsOf i).getD []) (List.replicate 2 false) [0] =
        [true, false] := by
      rw [mark, targets]
      simp [mark]
    simp only [Edges.live, roots, unexplained, length_cons, length_nil, marks]
    rw [if_pos]
    intro i inside marked
    rcases i with _ | _ | i
    · rw [targets]
      rfl
    · cases marked
    · cases marked
  refine ⟨finish (wideHeap count) (wideHeap count).snapshot [true, false], ?_, ?_, ?_⟩
  · simp only [collect, live]
    rfl
  · rfl
  · rfl

/-- With one reference the heap fits, and the second array is kept. -/
theorem collect_keeps_reachable_one :
    (wideHeap 1).CountedBy wideOutside ∧ Fits (wideHeap 1).snapshot ∧
      ∃ pass, collect true true (wideHeap 1) = some pass ∧ 1 ∉ pass.reclaimed := by
  have fits : Fits (wideHeap 1).snapshot := ⟨by decide, by decide⟩
  obtain ⟨pass, collected, keeps⟩ := collect_keeps_reachable true true (wideHeap 1) wideOutside
    (wideHeap_countedBy 1) fits
  have holds : (wideHeap 1).Refers 0 1 :=
    ⟨_, _, mem_cons_self, mem_cons_of_mem _ mem_cons_self, by decide⟩
  exact ⟨wideHeap_countedBy 1, fits, pass, collected,
    (keeps 0 _ 1 mem_cons_self (by decide) (.single holds)).1⟩

/-- With two to the thirty-two references the pass empties an array that a live array holds. -/
theorem wide_array_loses_contents :
    (wideHeap (2 ^ 32)).CountedBy wideOutside ∧
      ¬ ∃ pass, collect true true (wideHeap (2 ^ 32)) = some pass ∧
        ∀ root s a, (root, s) ∈ (wideHeap (2 ^ 32)).snapshot → 0 < wideOutside root →
          Relation.ReflTransGen (wideHeap (2 ^ 32)).Refers root a →
            a ∉ pass.reclaimed ∧ pass.node a = (wideHeap (2 ^ 32)).node a := by
  refine ⟨wideHeap_countedBy _, ?_⟩
  rintro ⟨pass, collected, keeps⟩
  obtain ⟨pass', collected', reclaimed, -⟩ := wideHeap_collect (2 ^ 32) (by decide)
  rw [collected, Option.some.injEq] at collected'
  have holds : (wideHeap (2 ^ 32)).Refers 0 1 := by
    refine ⟨_, _, mem_cons_self, mem_cons_of_mem _ mem_cons_self, ?_⟩
    rw [wide_reported]
    exact mem_replicate.mpr ⟨by decide, rfl⟩
  have kept := (keeps 0 _ 1 mem_cons_self (by decide) (.single holds)).1
  rw [collected', reclaimed] at kept
  exact kept mem_cons_self

end Zeo.Gc
