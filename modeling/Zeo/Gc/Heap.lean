import Zeo.Lib.Mark
import Zeo.Lib.Release
import Zeo.Value.HashInvariant

/-!
# Registered nodes

The collector knows the heap only through a registry of the nodes it may act on: arrays, hashes,
objects, the cells that blocks share with their scope, procs and ranges. A node tells which
references it owns, once as copies for the walk and once moved out for the sweep. Procs, ranges
and C structs report what they cannot release. The references inside the projected keys of a hash,
the native body of a proc and a C struct that does not mark them are not reported.
-/

namespace Zeo.Gc

open Zeo.Lib Zeo.Value List

section Nodes

variable {eql : UserEql} (im : ValueMap eql)

inductive ObjectData where
  /-- Fixed slots, which a sweep sets to nil, and named extras, which it takes away: instance
  variables, struct members, the hidden slots of an exception, the value a subclass wraps. -/
  | slots (fixed extras : List RubyValue)
  /-- `CData`: what the struct marks, and what it holds without marking. -/
  | cData (marked held : List RubyValue)

/-- `ProcEnvOwned`: what a compiled block closes over. -/
structure ProcEnv where
  cells : List Addr
  /-- The enclosing method's block. -/
  lexicalBlk : Option RubyValue
  binding : Option RubyValue

/-- `ProcData`, with the fields that own references. -/
structure ProcData where
  selfVal : RubyValue
  binding : Option RubyValue
  env : Option ProcEnv
  captured : List RubyValue

structure RangeData where
  start : Option RubyValue
  finish : Option RubyValue

/-- `Strong`: a registered node, by its contents. -/
inductive Strong where
  | array (elems : List RubyValue)
  | hash (data : RHashData im)
  | object (data : ObjectData)
  | cell (value : RubyValue)
  | proc (data : ProcData)
  | range (data : RangeData)

variable {im}

def flattenPairs (pairs : Pairs) : List RubyValue :=
  pairs.flatMap fun pair => [pair.1, pair.2]

/-- `RHashData::gc_visit`. Taking an ordered table leaves an empty one. -/
def hashGcVisit (data : RHashData im) (take : Bool) : List RubyValue × RHashData im :=
  if take then
    match data.repr with
    | .small rows =>
      (flattenPairs (rows.map (·.2)) ++ data.default :: data.defaultProc.toList,
        { data with repr := .small [], default := .nil, defaultProc := none })
    | .big table =>
      (flattenPairs (im.values table) ++ data.default :: data.defaultProc.toList,
        { data with repr := .big (im.fromIter []), default := .nil, defaultProc := none })
  else
    (flattenPairs (hashPairsSnapshot data) ++ data.default :: data.defaultProc.toList, data)

/-- `gc_visit` of the classes that implement `RubyObject`. -/
def ObjectData.gcVisit (take : Bool) : ObjectData → List RubyValue × ObjectData
  | .slots fixed extras =>
    (fixed ++ extras, if take then .slots (fixed.map fun _ => .nil) [] else .slots fixed extras)
  | .cData marked held => (if take then [] else marked, .cData marked held)

/-- `RProc::gc_edges`. -/
def ProcData.gcEdges (p : ProcData) : List RubyValue :=
  p.selfVal :: p.binding.toList ++
    match p.env with
    | some env => env.lexicalBlk.toList ++ env.binding.toList
    | none => []

/-- `Strong::gc_visit`. -/
def Strong.gcVisit (take : Bool) : Strong im → List RubyValue × Strong im
  | .array elems => (elems, if take then .array [] else .array elems)
  | .hash data => ((hashGcVisit data take).1, .hash (hashGcVisit data take).2)
  | .object data => ((data.gcVisit take).1, .object (data.gcVisit take).2)
  | .cell value => ([value], if take then .cell .nil else .cell value)
  | .proc data => (if take then [] else data.gcEdges, .proc data)
  | .range data =>
    (if take then [] else data.start.toList ++ data.finish.toList, .range data)

/-- `Strong::gc_cells`. -/
def Strong.gcCells : Strong im → List Addr
  | .proc data => (data.env.map (·.cells)).getD []
  | _ => []

/-- `value_addr`: the identity an edge points at. -/
def valueAddr : RubyValue → Option Addr
  | .array addr => some addr
  | .hash addr => some addr
  | .object addr => some addr
  | .reference .proc addr => some addr
  | .range addr => some addr
  | _ => none

def Strong.reported (s : Strong im) : List Addr :=
  (s.gcVisit false).1.filterMap valueAddr ++ s.gcCells

mutual

/-- The objects a projected key owns: the receivers that answer `eql?`. -/
def keyProbes : HashKey → List Addr
  | .computed answer object => object :: keyProbes answer
  | .array parts => keyProbesList parts
  | .range start finish _ => keyProbes start ++ keyProbes finish
  | .complex real imag => keyProbes real ++ keyProbes imag
  | .hash pairs => keyProbesPairs pairs
  | _ => []
termination_by structural x => x

def keyProbesList : List HashKey → List Addr
  | [] => []
  | key :: keys => keyProbes key ++ keyProbesList keys
termination_by structural x => x

def keyProbesPair : HashKey × HashKey → List Addr
  | (key, value) => keyProbes key ++ keyProbes value
termination_by structural x => x

def keyProbesPairs : List (HashKey × HashKey) → List Addr
  | [] => []
  | pair :: pairs => keyProbesPair pair ++ keyProbesPairs pairs
termination_by structural x => x

end

def rowProbes (data : RHashData im) : List Addr := data.rows.flatMap fun row => keyProbes row.1

def Strong.hidden : Strong im → List Addr
  | .hash data => rowProbes data
  | .object (.cData _ held) => held.filterMap valueAddr
  | .proc data => data.captured.filterMap valueAddr
  | _ => []

def Strong.refs (s : Strong im) : List Addr := s.reported ++ s.hidden

/-- The references a sweep releases: the values it moves out, and the row keys it drops. -/
def Strong.released (s : Strong im) : List Addr :=
  (match s with
    | .hash data => rowProbes data
    | _ => []) ++ (s.gcVisit true).1.filterMap valueAddr

def Strong.Clearable : Strong im → Prop
  | .array _ => True
  | .hash _ => True
  | .object (.slots _ _) => True
  | .object (.cData _ _) => False
  | .cell _ => True
  | .proc _ => False
  | .range _ => False

variable (im) in
/-- What a collection reads: the registry in allocation order, the node behind each handle that
is still alive, and the owner counts. -/
structure Heap where
  registry : List Addr
  node : Addr → Option (Strong im)
  owners : Addr → Nat

variable (im) in
/-- The live nodes with their addresses. -/
abbrev Snapshot := List (Addr × Strong im)

/-- One handle of `snapshot`: a dead one is passed over, and so is one already listed. -/
def snapshotStep (node : Addr → Option (Strong im)) (out : Snapshot im) (addr : Addr) :
    Snapshot im :=
  match node addr with
  | none => out
  | some found => if out.any (·.1 == addr) then out else out ++ [(addr, found)]

/-- `snapshot`: every live node once, in allocation order. -/
def Heap.snapshot (heap : Heap im) : Snapshot im :=
  heap.registry.foldl (snapshotStep heap.node) []

def Strong.cleared (s : Strong im) : Strong im := (s.gcVisit true).2

theorem hashGcVisit_values (lawful : im.Lawful) (data : RHashData im) (take : Bool) :
    (hashGcVisit data take).1 =
      flattenPairs (data.rows.map (·.2)) ++ data.default :: data.defaultProc.toList := by
  have pairs := hashPairsSnapshot_rows lawful data
  obtain ⟨repr, default, defaultProc, identity, iterating, marked⟩ := data
  cases take with
  | false => rw [hashGcVisit, if_neg Bool.false_ne_true, pairs]
  | true =>
    cases repr with
    | small rows => rfl
    | big table =>
      rw [hashGcVisit, if_pos rfl]
      simp only [lawful.values_iter, RHashData.rows]

theorem hashGcVisit_taken (lawful : im.Lawful) (data : RHashData im) :
    (hashGcVisit data true).2.rows = [] ∧ (hashGcVisit data true).2.default = .nil ∧
      (hashGcVisit data true).2.defaultProc = none := by
  cases data with
  | small rows => exact ⟨rfl, rfl, rfl⟩
  | big table => exact ⟨lawful.fromIter_iter [] List.Pairwise.nil, rfl, rfl⟩

theorem Strong.cleared_refs (lawful : im.Lawful) (s : Strong im) (clearable : s.Clearable) :
    s.cleared.refs = [] := by
  cases s with
  | array elems | cell value => rfl
  | hash data =>
    obtain ⟨rows, default, defaultProc⟩ := hashGcVisit_taken lawful data
    change (Strong.hash (hashGcVisit data true).2).refs = []
    simp only [refs, reported, hidden, gcVisit, hashGcVisit_values lawful, rowProbes, rows, default,
      defaultProc]
    rfl
  | object data =>
    cases data with
    | slots fixed extras =>
      have nothing : (fixed.map fun _ => RubyValue.nil).filterMap valueAddr = [] := by
        rw [filterMap_map, filterMap_eq_nil_iff]
        intro value _
        rfl
      change ((fixed.map fun _ => RubyValue.nil) ++ []).filterMap valueAddr ++ [] ++ [] = []
      rw [append_nil, append_nil, append_nil, nothing]
    | cData marked held => exact absurd clearable id
  | proc data | range data => exact absurd clearable id

theorem Strong.refs_cleared (lawful : im.Lawful) (s : Strong im) (a : Addr) :
    s.refs.count a = s.released.count a + s.cleared.refs.count a := by
  cases s with
  | array elems =>
    rw [cleared_refs lawful (.array elems) trivial]
    simp [refs, reported, hidden, released, gcVisit, gcCells]
  | hash data =>
    rw [cleared_refs lawful (.hash data) trivial]
    simp only [refs, reported, hidden, released, gcVisit, gcCells, hashGcVisit_values lawful,
      count_append]
    omega
  | object data =>
    cases data with
    | slots fixed extras =>
      rw [cleared_refs lawful (.object (.slots fixed extras)) trivial]
      simp [refs, reported, hidden, released, gcVisit, gcCells, ObjectData.gcVisit]
    | cData marked held => simp [released, cleared, gcVisit, ObjectData.gcVisit]
  | cell value =>
    rw [cleared_refs lawful (.cell value) trivial]
    simp [refs, reported, hidden, released, gcVisit, gcCells]
  | proc data | range data => simp [released, cleared, gcVisit]

structure Listed (node : Addr → Option (Strong im)) (seen : List Addr)
    (out : Snapshot im) : Prop where
  once : (out.map Prod.fst).Nodup
  /-- The nodes listed are those alive among the addresses seen. -/
  members : ∀ a s, (a, s) ∈ out ↔ a ∈ seen ∧ node a = some s

theorem Listed.step {node : Addr → Option (Strong im)} {seen : List Addr}
    {out : Snapshot im} (listed : Listed node seen out) (addr : Addr) :
    Listed node (seen ++ [addr]) (snapshotStep node out addr) := by
  unfold snapshotStep
  cases found : node addr with
  | none =>
    refine ⟨listed.once, fun a s => ?_⟩
    rw [listed.members, mem_append, mem_singleton]
    constructor
    · rintro ⟨before, alive⟩
      exact ⟨.inl before, alive⟩
    · rintro ⟨before | rfl, alive⟩
      · exact ⟨before, alive⟩
      · rw [found] at alive
        cases alive
  | some node' =>
    by_cases old : out.any (·.1 == addr) = true
    · simp only [old, if_true]
      obtain ⟨⟨a, s⟩, mem, same⟩ := any_eq_true.mp old
      have before := ((listed.members a s).mp mem).1
      have here : a = addr := beq_iff_eq.mp same
      refine ⟨listed.once, fun b t => ?_⟩
      rw [listed.members, mem_append, mem_singleton]
      constructor
      · rintro ⟨known, alive⟩
        exact ⟨.inl known, alive⟩
      · rintro ⟨known | rfl, alive⟩
        · exact ⟨known, alive⟩
        · exact ⟨here ▸ before, alive⟩
    · simp only [Bool.not_eq_true] at old
      simp only [old, Bool.false_eq_true, if_false]
      have absent : addr ∉ out.map Prod.fst := by
        intro mem
        obtain ⟨⟨a, s⟩, listedThere, same⟩ := mem_map.mp mem
        have hit := any_eq_false.mp old (a, s) listedThere
        exact hit (beq_iff_eq.mpr same)
      refine ⟨?_, fun b t => ?_⟩
      · rw [map_append, nodup_append]
        refine ⟨listed.once, pairwise_singleton .., ?_⟩
        intro b mem c last
        obtain rfl : c = addr := by simpa using last
        intro same
        exact absent (same ▸ mem)
      · rw [mem_append, mem_append, mem_singleton, mem_singleton,
          listed.members]
        constructor
        · rintro (⟨known, alive⟩ | last)
          · exact ⟨.inl known, alive⟩
          · cases last
            exact ⟨.inr rfl, found⟩
        · rintro ⟨known | rfl, alive⟩
          · exact .inl ⟨known, alive⟩
          · rw [found] at alive
            cases alive
            exact .inr rfl

theorem Heap.snapshot_listed (heap : Heap im) : Listed heap.node heap.registry heap.snapshot := by
  have run : ∀ (rest seen : List Addr) (out : Snapshot im),
      Listed heap.node seen out →
        Listed heap.node (seen ++ rest) (rest.foldl (snapshotStep heap.node) out) := by
    intro rest
    induction rest with
    | nil =>
      intro seen out listed
      simpa using listed
    | cons addr rest ih =>
      intro seen out listed
      have next := ih (seen ++ [addr]) _ (listed.step addr)
      rwa [append_assoc, singleton_append] at next
  exact run heap.registry [] [] ⟨nodup_nil, by simp⟩

end Nodes

end Zeo.Gc
