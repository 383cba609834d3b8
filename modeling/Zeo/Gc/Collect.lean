import Zeo.Gc.Heap

/-!
# The collection pass

The pass asks of every registered node whether its owner count is explained by references from
registered nodes. A node with an unexplained owner is live, and so is what it reaches. The others
are emptied. The graph is held flat: one table of targets for all nodes, and the offset at which
each node's run begins. Both hold 32-bit numbers, and neither conversion to 32 bits is checked.
-/

namespace Zeo.Gc

open Zeo.Lib Zeo.Value List Nat

section Collect

variable {eql : UserEql} {im : ValueMap eql}

/-- `as u32`. -/
def u32 (n : Nat) : Nat := n % 2 ^ 32

def indexOf (nodes : Snapshot im) (addr : Addr) : Option Nat :=
  nodes.findIdx? (·.1 == addr)

/-- The state of the walk: the unexplained owners, and the two tables of the graph. -/
structure Edges where
  unexplained : List Int
  starts : List Nat
  targets : List Nat

def Edges.noteTarget (index : Addr → Option Nat) (e : Edges) (target : Addr) : Edges :=
  match index target with
  | some t =>
    { e with
      unexplained := e.unexplained.modify t (· - 1)
      targets := e.targets ++ [u32 t] }
  | none => e

def Edges.noteNode (index : Addr → Option Nat) (e : Edges) (node : Strong im) : Edges :=
  node.reported.foldl (noteTarget index) { e with starts := e.starts ++ [u32 e.targets.length] }

/-- The walk over the nodes, from the owner counts read before it. The pass's own handle is not
counted. -/
def walk (owners : Addr → Nat) (nodes : Snapshot im) : Edges :=
  let start : Edges := ⟨nodes.map fun n => (owners n.1 : Int) - 1, [], []⟩
  let e := nodes.foldl (fun e n => e.noteNode (indexOf nodes) n.2) start
  { e with starts := e.starts ++ [u32 e.targets.length] }

/-- The slice of a node's targets. A slice whose ends are out of order or out of range panics. -/
def Edges.targetsOf (e : Edges) (i : Nat) : Option (List Nat) := do
  let lo ← e.starts[i]?
  let hi ← e.starts[i + 1]?
  if lo ≤ hi ∧ hi ≤ e.targets.length then some ((e.targets.take hi).drop lo) else none

/-- The positions of nodes with an unexplained owner, the top of the stack first. -/
def Edges.roots (e : Edges) : List Nat :=
  ((List.range e.unexplained.length).filter fun i => 0 < e.unexplained.getD i 0).reverse

/-- The live nodes, unless a slice on the way panics. A slice that panics ends the pass, so what
is marked after it does not matter. -/
def Edges.live (e : Edges) : Option (List Bool) :=
  let marks := mark (fun i => (e.targetsOf i).getD []) (List.replicate e.unexplained.length false)
    e.roots
  if ∀ i < marks.length, marks[i]? = some true → (e.targetsOf i).isSome then some marks else none

variable (im) in
structure Pass where
  node : Addr → Option (Strong im)
  reclaimed : List Addr
  /-- The registered nodes whose owners have not all gone. -/
  alive : List Addr
  /-- The owners once everything the pass took or held is dropped. -/
  owners : Addr → Nat

def dead (nodes : Snapshot im) (live : List Bool) : Snapshot im :=
  ((nodes.zip live).filter fun n => !n.2).map (·.1)

/-- The heap's nodes with the dead ones emptied. -/
def sweep (node : Addr → Option (Strong im)) (gone : Snapshot im) (addr : Addr) :
    Option (Strong im) :=
  match gone.find? (·.1 == addr) with
  | some (_, s) => some s.cleared
  | none => node addr

def refsAt (node : Addr → Option (Strong im)) (addr : Addr) : List Addr :=
  ((node addr).map Strong.refs).getD []

/-- The sweep, and what happens when the pass lets go: the released references are dropped, then
the pass's handles. What a value outside the registry drops in turn is not followed; it counts as
held from elsewhere. -/
def finish (heap : Heap im) (nodes : Snapshot im) (live : List Bool) : Pass im :=
  let gone := dead nodes live
  let node := sweep heap.node gone
  let held : Counted Addr :=
    ⟨nodes.map (·.1), fun addr =>
      heap.owners addr + if addr ∈ nodes.map (·.1) then 1 else 0⟩
  let dropped := held.release (refsAt node) (gone.flatMap (·.2.released) ++ nodes.map (·.1))
  ⟨node, gone.map (·.1), dropped.alive, dropped.owners⟩

def idle (heap : Heap im) : Pass im :=
  ⟨heap.node, [], heap.snapshot.map (·.1), heap.owners⟩

/-- `collect`. Nothing happens unless allocations are recorded and every other thread is
stopped; no result is a panic. -/
def collect (recording stopped : Bool) (heap : Heap im) : Option (Pass im) :=
  if recording && stopped then
    let nodes := heap.snapshot
    if nodes.isEmpty then some (idle heap)
    else do
      -- The pass's own handle is one more owner of every node.
      let live ← (walk (fun addr => heap.owners addr + 1) nodes).live
      some (finish heap nodes live)
  else some (idle heap)

def edgesOf (index : Addr → Option Nat) (node : Strong im) : List Nat :=
  node.reported.filterMap index

def allEdges (index : Addr → Option Nat) (nodes : Snapshot im) : List Nat :=
  nodes.flatMap fun n => edgesOf index n.2

variable (index : Addr → Option Nat)

theorem foldl_noteTarget (addrs : List Addr) (e : Edges) :
    (addrs.foldl (Edges.noteTarget index) e).targets =
        e.targets ++ (addrs.filterMap index).map u32 ∧
      (addrs.foldl (Edges.noteTarget index) e).starts = e.starts ∧
      ∀ j : Nat, (addrs.foldl (Edges.noteTarget index) e).unexplained[j]? =
        e.unexplained[j]?.map (· - ((addrs.filterMap index).count j : Int)) := by
  induction addrs generalizing e with
  | nil => simp
  | cons addr rest ih =>
    obtain ⟨targets, starts, unexplained⟩ := ih (e.noteTarget index addr)
    rw [foldl_cons]
    cases found : index addr with
    | none =>
      have same : e.noteTarget index addr = e := by simp only [Edges.noteTarget, found]
      rw [same] at targets starts unexplained
      rw [same, filterMap_cons_none found]
      exact ⟨targets, starts, unexplained⟩
    | some t =>
      have noted : e.noteTarget index addr =
          { e with
            unexplained := e.unexplained.modify t (· - 1)
            targets := e.targets ++ [u32 t] } := by simp only [Edges.noteTarget, found]
      rw [noted] at targets starts unexplained
      rw [noted, filterMap_cons_some found]
      refine ⟨by rw [targets]; simp, starts, fun j => ?_⟩
      rw [unexplained j, List.getElem?_modify, count_cons]
      cases e.unexplained[j]? with
      | none => simp
      | some n =>
        by_cases here : t = j
        · subst here
          simp only [if_true, Option.map_eq_map, Option.map_some, beq_self_eq_true,
            Option.some.injEq]
          omega
        · simp [here]

theorem noteNode_spec (e : Edges) (node : Strong im) :
    (e.noteNode index node).targets = e.targets ++ (edgesOf index node).map u32 ∧
      (e.noteNode index node).starts = e.starts ++ [u32 e.targets.length] ∧
      ∀ j : Nat, (e.noteNode index node).unexplained[j]? =
        e.unexplained[j]?.map (· - ((edgesOf index node).count j : Int)) :=
  foldl_noteTarget index node.reported _

theorem foldl_noteNode (nodes : Snapshot im) (e : Edges) :
    (nodes.foldl (fun e n => e.noteNode index n.2) e).targets =
        e.targets ++ (allEdges index nodes).map u32 ∧
      (nodes.foldl (fun e n => e.noteNode index n.2) e).starts =
        e.starts ++ (List.range nodes.length).map (fun i =>
          u32 (e.targets.length + (allEdges index (nodes.take i)).length)) ∧
      ∀ j : Nat, (nodes.foldl (fun e n => e.noteNode index n.2) e).unexplained[j]? =
        e.unexplained[j]?.map (· - ((allEdges index nodes).count j : Int)) := by
  induction nodes generalizing e with
  | nil => simp [allEdges]
  | cons n rest ih =>
    obtain ⟨targets, starts, unexplained⟩ := ih (e.noteNode index n.2)
    obtain ⟨noted, began, taken⟩ := noteNode_spec index e n.2
    rw [foldl_cons]
    refine ⟨?_, ?_, fun j => ?_⟩
    · rw [targets, noted]
      simp [allEdges]
    · rw [starts, noted, began, append_assoc, length_cons, range_succ_eq_map,
        map_cons, map_map]
      simp only [allEdges, take_zero, flatMap_nil, length_nil, add_zero,
        singleton_append, length_append, length_map, Function.comp_def,
        take_succ_cons, flatMap_cons, add_assoc]
    · rw [unexplained j, taken j]
      cases e.unexplained[j]? with
      | none => rfl
      | some m =>
        simp only [allEdges, flatMap_cons, count_append, Option.map_some, Option.some.injEq]
        omega

/-- No conversion to 32 bits wraps: neither a position that a reference leads to, nor an offset in
the table of targets. -/
structure Fits (nodes : Snapshot im) : Prop where
  positions : ∀ t ∈ allEdges (indexOf nodes) nodes, t < 2 ^ 32
  edges : (allEdges (indexOf nodes) nodes).length < 2 ^ 32

variable {nodes : Snapshot im}

theorem mem_allEdges {sub : Snapshot im} {t : Nat}
    (mem : t ∈ allEdges (indexOf nodes) sub) : t < nodes.length := by
  obtain ⟨n, -, edge⟩ := mem_flatMap.mp mem
  obtain ⟨addr, -, found⟩ := mem_filterMap.mp edge
  exact (List.findIdx?_eq_some_iff_findIdx_eq.mp found).1

theorem allEdges_slice {i : Nat} {n : Addr × Strong im} (here : nodes[i]? = some n) :
    (allEdges index (nodes.take i)).length ≤ (allEdges index (nodes.take (i + 1))).length ∧
      (allEdges index (nodes.take (i + 1))).length ≤ (allEdges index nodes).length ∧
      ((allEdges index nodes).take (allEdges index (nodes.take (i + 1))).length).drop
        (allEdges index (nodes.take i)).length = edgesOf index n.2 := by
  have next : allEdges index (nodes.take (i + 1)) =
      allEdges index (nodes.take i) ++ edgesOf index n.2 := by
    rw [take_add_one, here]
    simp [allEdges]
  have whole : allEdges index nodes =
      allEdges index (nodes.take (i + 1)) ++ allEdges index (nodes.drop (i + 1)) := by
    conv_lhs => rw [← take_append_drop (i + 1) nodes]
    simp only [allEdges, flatMap_append]
  refine ⟨by rw [next]; simp, by rw [whole]; simp, ?_⟩
  rw [whole, take_left, next, drop_left]

theorem walk_spec (owners : Addr → Nat) (nodes : Snapshot im) :
    (walk owners nodes).targets = (allEdges (indexOf nodes) nodes).map u32 ∧
      (∀ i, i ≤ nodes.length → (walk owners nodes).starts[i]? =
        some (u32 (allEdges (indexOf nodes) (nodes.take i)).length)) ∧
      ∀ j : Nat, (walk owners nodes).unexplained[j]? = nodes[j]?.map fun n =>
        (owners n.1 : Int) - 1 - ((allEdges (indexOf nodes) nodes).count j : Int) := by
  obtain ⟨targets, starts, unexplained⟩ := foldl_noteNode (indexOf nodes) nodes
    ⟨nodes.map fun n => (owners n.1) - 1, [], []⟩
  refine ⟨targets, ?_, ?_⟩
  · intro i within
    change (Edges.starts (nodes.foldl _ _) ++ [u32 (Edges.targets (nodes.foldl _ _)).length])[i]? = _
    rw [starts, targets]
    rcases lt_or_eq_of_le within with before | rfl
    · rw [List.getElem?_append_left (by simpa using before)]
      simp [before]
    · simp
  · intro j
    change (Edges.unexplained (nodes.foldl _ _))[j]? = _
    rw [unexplained j, List.getElem?_map, Option.map_map]
    rfl

structure Walked (owners : Addr → Nat) (nodes : Snapshot im) (e : Edges) : Prop where
  targets : ∀ i n, nodes[i]? = some n → e.targetsOf i = some (edgesOf (indexOf nodes) n.2)
  length : e.unexplained.length = nodes.length
  /-- The count of a node is its owners but the pass and the references reported. -/
  unexplained : ∀ (i : Nat) n, nodes[i]? = some n → e.unexplained[i]? =
    some ((owners n.1 : Int) - 1 - ((allEdges (indexOf nodes) nodes).count i : Int))

theorem walk_length (owners : Addr → Nat) (nodes : Snapshot im) :
    (walk owners nodes).unexplained.length = nodes.length := by
  have same : ∀ j : Nat, (walk owners nodes).unexplained.length ≤ j ↔ nodes.length ≤ j := by
    intro j
    rw [← List.getElem?_eq_none_iff, (walk_spec owners nodes).2.2 j, Option.map_eq_none_iff,
      List.getElem?_eq_none_iff]
  exact le_antisymm ((same _).mpr (le_refl _)) ((same _).mp (le_refl _))

theorem walk_walked (owners : Addr → Nat) (fits : Fits nodes) :
    Walked owners nodes (walk owners nodes) := by
  obtain ⟨targets, starts, unexplained⟩ := walk_spec owners nodes
  have table : (walk owners nodes).targets = allEdges (indexOf nodes) nodes := by
    rw [targets]
    conv_rhs => rw [← map_id (allEdges (indexOf nodes) nodes)]
    apply map_congr_left
    intro t mem
    exact mod_eq_of_lt (fits.positions t mem)
  refine ⟨?_, walk_length owners nodes, ?_⟩
  · intro i n here
    have inside : i < nodes.length := (List.getElem?_eq_some_iff.mp here).1
    obtain ⟨ordered, ranged, slice⟩ := allEdges_slice (indexOf nodes) here
    have below := lt_of_le_of_lt ranged fits.edges
    have lo := starts i (le_of_lt inside)
    have hi := starts (i + 1) inside
    rw [u32, mod_eq_of_lt (lt_of_le_of_lt ordered below)] at lo
    rw [u32, mod_eq_of_lt below] at hi
    simp only [Edges.targetsOf, lo, hi, table, Option.bind_eq_bind, Option.bind_some]
    rw [if_pos ⟨ordered, ranged⟩, slice]
  · intro i n here
    rw [unexplained i, here]
    rfl

theorem indexOf_eq_some_iff (once : (nodes.map Prod.fst).Nodup) (a : Addr) (i : Nat) :
    indexOf nodes a = some i ↔ ∃ s, nodes[i]? = some (a, s) := by
  rw [indexOf, List.findIdx?_eq_some_iff_getElem]
  constructor
  · rintro ⟨inside, here, -⟩
    have same : nodes[i].1 = a := beq_iff_eq.mp here
    exact ⟨nodes[i].2, by rw [List.getElem?_eq_getElem inside, ← same]⟩
  · rintro ⟨s, here⟩
    obtain ⟨inside, there⟩ := List.getElem?_eq_some_iff.mp here
    refine ⟨inside, by rw [there]; exact beq_self_eq_true a, ?_⟩
    intro j before same
    have earlier : j < nodes.length := lt_trans before inside
    have equal : (nodes.map Prod.fst)[j]? = (nodes.map Prod.fst)[i]? := by
      rw [List.getElem?_map, List.getElem?_map, here, List.getElem?_eq_getElem earlier]
      exact congrArg some (beq_iff_eq.mp same)
    have clash := (List.getElem?_inj (by simpa using earlier) once).mp equal
    omega

variable {a : Addr} {s : Strong im}

theorem count_filterMap_indexOf (once : (nodes.map Prod.fst).Nodup)
    {i : Nat} (here : nodes[i]? = some (a, s)) (addrs : List Addr) :
    (addrs.filterMap (indexOf nodes)).count i = addrs.count a := by
  induction addrs with
  | nil => rfl
  | cons addr rest ih =>
    by_cases same : addr = a
    · have found : indexOf nodes addr = some i := by
        rw [indexOf_eq_some_iff once]
        exact ⟨s, same ▸ here⟩
      rw [filterMap_cons_some found, count_cons_self, ih, same, count_cons_self]
    · rw [count_cons_of_ne same]
      cases found : indexOf nodes addr with
      | none => rw [filterMap_cons_none found, ih]
      | some j =>
        have apart : j ≠ i := by
          rintro rfl
          obtain ⟨t, there⟩ := (indexOf_eq_some_iff once addr j).mp found
          rw [here] at there
          cases there
          exact same rfl
        rw [filterMap_cons_some found, count_cons_of_ne apart, ih]

def explained (nodes : Snapshot im) (a : Addr) : Nat :=
  (nodes.map fun n => n.2.reported.count a).sum

theorem count_allEdges (once : (nodes.map Prod.fst).Nodup) {i : Nat}
    (here : nodes[i]? = some (a, s)) (sub : Snapshot im) :
    (allEdges (indexOf nodes) sub).count i = explained sub a := by
  induction sub with
  | nil => rfl
  | cons n rest ih =>
    have first := count_filterMap_indexOf once here n.2.reported
    simp only [allEdges, explained, flatMap_cons, count_append, map_cons, sum_cons] at ih ⊢
    rw [ih, edgesOf, first]

def Edges.follow (e : Edges) (i : Nat) : List Nat := (e.targetsOf i).getD []

theorem Walked.live {owners : Addr → Nat} {e : Edges} (walked : Walked owners nodes e) :
    e.live = some (mark e.follow (List.replicate nodes.length false) e.roots) := by
  simp only [Edges.live, walked.length]
  rw [if_pos]
  · rfl
  · intro i inside _
    rw [mark_length, length_replicate] at inside
    rw [walked.targets i nodes[i] (List.getElem?_eq_getElem inside)]
    rfl

theorem mem_roots_iff (e : Edges) (i : Nat) :
    i ∈ e.roots ↔ ∃ n : Int, e.unexplained[i]? = some n ∧ 0 < n := by
  rw [Edges.roots, mem_reverse, mem_filter, mem_range]
  constructor
  · rintro ⟨inside, positive⟩
    refine ⟨e.unexplained[i], List.getElem?_eq_getElem inside, ?_⟩
    simpa [List.getElem?_eq_getElem inside] using positive
  · rintro ⟨n, there, positive⟩
    have inside := (List.getElem?_eq_some_iff.mp there).1
    exact ⟨inside, by simpa [there] using positive⟩

theorem mem_dead_iff {live : List Bool} (a : Addr) (s : Strong im) :
    (a, s) ∈ dead nodes live ↔ ∃ i : Nat, nodes[i]? = some (a, s) ∧ live[i]? = some false := by
  simp only [dead, mem_map, mem_filter, Prod.exists, exists_and_right, exists_eq_right]
  constructor
  · rintro ⟨mark, listed, clear⟩
    obtain ⟨i, there⟩ := mem_iff_getElem?.mp listed
    obtain ⟨node, flag⟩ := List.getElem?_zip_eq_some.mp there
    have unset : mark = false := by simpa using clear
    exact ⟨i, node, unset ▸ flag⟩
  · rintro ⟨i, node, flag⟩
    exact ⟨false, mem_iff_getElem?.mpr ⟨i, List.getElem?_zip_eq_some.mpr ⟨node, flag⟩⟩, rfl⟩

theorem sweep_kept (node : Addr → Option (Strong im)) {gone : Snapshot im}
    (kept : a ∉ gone.map Prod.fst) : sweep node gone a = node a := by
  have none : gone.find? (·.1 == a) = none := by
    rw [List.find?_eq_none]
    intro n mem same
    exact kept (mem_map.mpr ⟨n, mem, beq_iff_eq.mp same⟩)
  simp only [sweep, none]

end Collect

end Zeo.Gc
