import Mathlib.Data.List.Forall2
import Mathlib.Data.List.Nodup
import Zeo.Ractor.Cross

/-!
# What a crossing rebuilds

While a crossing runs the heap only grows. Every node that is rebuilt stands at an address of its
own, and when the walk has left the node its copy holds, in order, what stands for what the node
held. Until then the node is open: only its own copy is written. A pair of a hash may be lost in the
copy, where its key meets an equal one.
-/

namespace Zeo.Ractor

open Zeo.Lib Zeo.Value List Ractor

variable {eql : UserEql} {im : ValueMap eql}

structure Extends (origin h : Heap im) : Prop where
  cells : ∀ addr, addr < origin.next → h.cell addr = origin.cell addr
  next : origin.next ≤ h.next
  anyMoved : h.anyMoved = origin.anyMoved

namespace Extends

variable {origin h h' : Heap im}

theorem refl (h : Heap im) : Extends h h := ⟨fun _ _ => rfl, Nat.le_refl _, rfl⟩

theorem trans (first : Extends origin h) (second : Extends h h') : Extends origin h' where
  cells addr old := (second.cells addr (Nat.lt_of_lt_of_le old first.next)).trans (first.cells addr old)
  next := Nat.le_trans first.next second.next
  anyMoved := second.anyMoved.trans first.anyMoved

variable (grown : Extends origin h)

include grown

variable {addr : Addr}

theorem body (old : addr < origin.next) : h.body addr = origin.body addr := by
  unfold Heap.body
  rw [grown.cells addr old]

theorem frozen (old : addr < origin.next) : h.frozen addr = origin.frozen addr := by
  unfold Heap.frozen
  rw [grown.cells addr old]

theorem moved (old : addr < origin.next) : h.moved addr = origin.moved addr := by
  unfold Heap.moved
  rw [grown.cells addr old]

variable {v : RubyValue} (within : Inside origin v)

include within

theorem inside : Inside h v := by
  intro addr target
  obtain ⟨body, there, kind⟩ := within addr target
  exact ⟨body, (grown.body (Heap.lt_next there)).trans there, kind⟩

theorem bodies : ∀ addr ∈ targetOf v, h.body addr = origin.body addr :=
  fun _ target => grown.body (within.lt_next target)

theorem walkedEdges : walkedEdges h v = walkedEdges origin v :=
  walkedEdges_congr (grown.bodies within)

theorem husk : husk h v = husk origin v :=
  husk_congr (grown.bodies within) (fun _ target => grown.moved (within.lt_next target))
    grown.anyMoved

theorem testedEdges : testedEdges h v = testedEdges origin v := by
  unfold Ractor.testedEdges
  rw [grown.husk within, grown.walkedEdges within]

theorem passes : passes h v = passes origin v := by
  have exempted := exempt_congr (grown.bodies within) (grown.husk within)
  unfold Ractor.passes
  rw [exempted]
  cases v with
  | str s =>
    cases s with
    | shared addr => simp only [Heap.strFrozen, grown.frozen (within.lt_next rfl)]
    | frozenCopy addr buf => rfl
  | array addr | hash addr | object addr => simp only [grown.frozen (within.lt_next rfl)]
  | reference kind addr =>
    cases kind with
    | proc => simp only [grown.frozen (within.lt_next rfl)]
    | _ => rfl
  | _ => rfl

omit within

/-- The test keeps to the older part of the heap. -/
theorem shareWalker_bounded (formed : WellFormed origin) :
    (shareWalker h).Bounded (Inside origin) (containers h) rangeRank h.next where
  closed v inside e edge := by
    change e ∈ Ractor.testedEdges h v at edge
    rw [grown.testedEdges inside] at edge
    exact (Ractor.shareWalker_bounded formed).closed v inside e edge
  known v inside guarded := by
    obtain ⟨ptr, identity⟩ := Option.isSome_iff_exists.mp (Bool.and_eq_true_iff.mp guarded).2
    exact mem_containers identity (grown.inside inside)
  rank_le v inside := rangeRank_le (grown.inside inside)
  falls v inside plain e edge := by
    change e ∈ Ractor.testedEdges h v at edge
    rw [grown.testedEdges inside] at edge
    refine (Ractor.shareWalker_bounded formed).falls v inside ?_ e edge
    change (!Ractor.husk h v && _) = false at plain
    rw [grown.husk inside] at plain
    exact plain

theorem tested_iff (formed : WellFormed origin) (inside : Inside origin v) (u : RubyValue) :
    Tested h v u ↔ Tested origin v u := by
  have bounded := Ractor.shareWalker_bounded formed
  constructor
  · intro reach
    have both : Tested origin v u ∧ Inside origin u := by
      induction reach with
      | refl => exact ⟨.refl, inside⟩
      | @tail b c _ edge ih =>
        change c ∈ Ractor.testedEdges h b at edge
        rw [grown.testedEdges ih.2] at edge
        exact ⟨ih.1.tail edge, bounded.closed _ ih.2 _ edge⟩
    exact both.1
  · intro reach
    have both : Tested h v u ∧ Inside origin u := by
      induction reach with
      | refl => exact ⟨.refl, inside⟩
      | @tail b c _ edge ih =>
        have closed := bounded.closed _ ih.2 _ edge
        change c ∈ Ractor.testedEdges origin b at edge
        rw [← grown.testedEdges ih.2] at edge
        exact ⟨ih.1.tail edge, closed⟩
    exact both.1

theorem shareable (formed : WellFormed origin) (inside : Inside origin v) :
    shareable h v = shareable origin v := by
  have stays : ∀ u, Tested origin v u → Inside origin u := by
    intro u reach
    induction reach with
    | refl => exact inside
    | tail _ edge ih => exact (Ractor.shareWalker_bounded formed).closed _ ih _ edge
  rw [Bool.eq_iff_iff, shareable_iff_of_bounded (grown.shareWalker_bounded formed) inside,
    shareable_iff formed inside]
  refine forall_congr' fun u => ?_
  rw [grown.tested_iff formed inside]
  exact imp_congr_right fun reach => by rw [grown.passes (stays u reach)]

end Extends

mutual

/-- The second value stands for the first: the value itself where it is shareable, its copy where it
was rebuilt, and for a range a range of what stands for its ends. -/
inductive Stands (origin : Heap im) (st : CrossState im) : RubyValue → RubyValue → Prop
  | shared {v : RubyValue} : shareable origin v = true → Stands origin st v v
  | built {v out : RubyValue} : (v, out) ∈ st.built → Stands origin st v out
  | range {a b : Addr} {start finish : Option RubyValue} {excl : Bool} :
    shareable origin (.range a) = false → origin.next ≤ b →
    st.heap.cell b = some ⟨.range start finish excl, false, false, []⟩ →
    (origin.range a).2.2 = excl → StandsOption origin st (origin.range a).1 start →
    StandsOption origin st (origin.range a).2.1 finish → Stands origin st (.range a) (.range b)

inductive StandsOption (origin : Heap im) (st : CrossState im) :
    Option RubyValue → Option RubyValue → Prop
  | none : StandsOption origin st none none
  | some {v out : RubyValue} : Stands origin st v out → StandsOption origin st (some v) (some out)

end

/-- What a value stands for is kept: nothing leaves the table, and no range changes. -/
structure Persists (st st' : CrossState im) : Prop where
  built : st.built ⊆ st'.built
  ranges : ∀ b start finish excl,
    st.heap.cell b = some ⟨.range start finish excl, false, false, []⟩ →
      st'.heap.cell b = some ⟨.range start finish excl, false, false, []⟩

theorem Persists.trans {st st' st'' : CrossState im} (first : Persists st st')
    (second : Persists st' st'') : Persists st st'' where
  built := List.Subset.trans first.built second.built
  ranges _ _ _ _ there := second.ranges _ _ _ _ (first.ranges _ _ _ _ there)

section

variable {origin : Heap im} {st st' : CrossState im}

mutual

theorem Stands.mono (persists : Persists st st') {v out : RubyValue} :
    Stands origin st v out → Stands origin st' v out
  | .shared passed => .shared passed
  | .built mem => .built (persists.built mem)
  | .range refused young there excl start finish =>
    .range refused young (persists.ranges _ _ _ _ there) excl (start.mono persists)
      (finish.mono persists)

theorem StandsOption.mono (persists : Persists st st') {v out : Option RubyValue} :
    StandsOption origin st v out → StandsOption origin st' v out
  | .none => .none
  | .some stands => .some (stands.mono persists)

end

end

/-- What stands for a key of a hash. A string that is not frozen is stored as a frozen copy. -/
inductive StandsKey (origin : Heap im) (st : CrossState im) (byIdentity : Bool) :
    RubyValue → RubyValue → Prop
  | same {key out : RubyValue} : Stands origin st key out →
    (byIdentity = true ∨ ∀ a, key = .str (.shared a) → origin.frozen a = true) →
    StandsKey origin st byIdentity key out
  | copied {a n : Addr} : byIdentity = false → origin.frozen a = false →
    StandsKey origin st byIdentity (.str (.shared a)) (.str (.frozenCopy n (origin.str a)))

/-- The pairs of a copy stand for the pairs of a hash in order, unless some are lost. -/
structure StandPairs (origin : Heap im) (st : CrossState im) (byIdentity : Bool)
    (pairs outs : Pairs) : Prop where
  length_le : outs.length ≤ pairs.length
  crossed : ∀ pair ∈ pairs, (∃ out, Stands origin st pair.1 out) ∧ ∃ out, Stands origin st pair.2 out
  inOrder : outs.length = pairs.length → List.Forall₂ (fun pair out =>
    StandsKey origin st byIdentity pair.1 out.1 ∧ Stands origin st pair.2 out.2) pairs outs

inductive Complete (origin : Heap im) (st : CrossState im) : RubyValue → RubyValue → Prop
  | str {a b : Addr} : st.heap.cell b = some ⟨.str (origin.str a), false, false, []⟩ →
    Complete origin st (.str (.shared a)) (.str (.shared b))
  | array {a b : Addr} {outs : List RubyValue} :
    st.heap.cell b = some ⟨.array outs, false, false, []⟩ →
    List.Forall₂ (Stands origin st) (origin.elems a) outs →
    Complete origin st (.array a) (.array b)
  | hash {a b : Addr} {data : RHashData im} :
    st.heap.cell b = some ⟨.hash data, false, false, []⟩ →
    data.compareByIdentity = (origin.table a).compareByIdentity →
    StandPairs origin st (origin.table a).compareByIdentity (hashPairsSnapshot (origin.table a))
      (hashPairsSnapshot data) →
    Stands origin st (origin.table a).default data.default →
    StandsOption origin st (origin.table a).defaultProc data.defaultProc →
    Complete origin st (.hash a) (.hash b)
  | object {a b : Addr} {data : ObjectData} :
    st.heap.cell b = some ⟨.object data, origin.frozen a, false, []⟩ →
    data.type = (origin.object a).type → data.cls = (origin.object a).cls →
    data.members = (origin.object a).members →
    List.Forall₂ (fun pair out => pair.1 = out.1 ∧ Stands origin st pair.2 out.2)
      (origin.object a).ivars data.ivars →
    StandsOption origin st (origin.object a).payload data.payload →
    Complete origin st (.object a) (.object b)

section

variable {origin : Heap im} {st st' : CrossState im} {byIdentity : Bool}

theorem StandsKey.mono (persists : Persists st st') {key out : RubyValue}
    (stands : StandsKey origin st byIdentity key out) :
    StandsKey origin st' byIdentity key out := by
  cases stands with
  | same stands kept => exact .same (stands.mono persists) kept
  | copied mode thawed => exact .copied mode thawed

theorem StandPairs.mono (persists : Persists st st') {pairs outs : Pairs}
    (stands : StandPairs origin st byIdentity pairs outs) :
    StandPairs origin st' byIdentity pairs outs where
  length_le := stands.length_le
  crossed pair mem := by
    obtain ⟨⟨key, first⟩, value, second⟩ := stands.crossed pair mem
    exact ⟨⟨key, first.mono persists⟩, value, second.mono persists⟩
  inOrder same := (stands.inOrder same).imp fun _ _ both =>
    ⟨both.1.mono persists, both.2.mono persists⟩

theorem StandPairs.snoc {pairs outs outs' : Pairs}
    (stands : StandPairs origin st byIdentity pairs outs) {key value : RubyValue}
    (crossed : (∃ out, Stands origin st key out) ∧ ∃ out, Stands origin st value out)
    (grew : outs'.length = outs.length ∨ ∃ out, outs' = outs ++ [out] ∧
      StandsKey origin st byIdentity key out.1 ∧ Stands origin st value out.2) :
    StandPairs origin st byIdentity (pairs ++ [(key, value)]) outs' := by
  have fits := stands.length_le
  refine ⟨?_, fun pair mem => ?_, fun full => ?_⟩
  · rw [length_append, length_singleton]
    rcases grew with same | ⟨out, rfl, _⟩
    · omega
    · rw [length_append, length_singleton]
      omega
  · rcases mem_append.mp mem with earlier | last
    · exact stands.crossed pair earlier
    · rw [mem_singleton.mp last]
      exact crossed
  · rw [length_append, length_singleton] at full
    rcases grew with same | ⟨out, rfl, both⟩
    · omega
    · rw [length_append] at full
      exact rel_append (stands.inOrder (Nat.succ.inj full)) (.cons both .nil)

theorem Complete.mono (persists : Persists st st') {v out : RubyValue}
    (complete : Complete origin st v out)
    (cell : ∀ addr, targetOf out = some addr → st'.heap.cell addr = st.heap.cell addr) :
    Complete origin st' v out := by
  cases complete with
  | str there => exact .str ((cell _ rfl).trans there)
  | array there elems =>
    exact .array ((cell _ rfl).trans there) (elems.imp fun _ _ stands => stands.mono persists)
  | hash there mode pairs default proc =>
    exact .hash ((cell _ rfl).trans there) mode (pairs.mono persists) (default.mono persists)
      (proc.mono persists)
  | object there type cls members ivars payload =>
    exact .object ((cell _ rfl).trans there) type cls members
      (ivars.imp fun _ _ both => ⟨both.1, both.2.mono persists⟩) (payload.mono persists)

end

def crossedEdges (h : Heap im) : RubyValue → List RubyValue
  | .array addr => h.elems addr
  | .hash addr => pairValues h addr ++ (h.table addr).default :: (h.table addr).defaultProc.toList
  | .range addr => rangeEnds h addr
  | .object addr => (h.object addr).ivars.map (·.2) ++ (h.object addr).payload.toList
  | _ => []

def Crossed (h : Heap im) : RubyValue → RubyValue → Prop :=
  Relation.ReflTransGen fun a b => shareable h a = false ∧ b ∈ crossedEdges h a

def place : RubyValue → Addr → RubyValue
  | .str _, addr => .str (.shared addr)
  | .array _, addr => .array addr
  | .hash _, addr => .hash addr
  | .object _, addr => .object addr
  | v, _ => v

/-- A key whose projection a crossing leaves alone: a string that is told by its text, a value that is
told by its address, or one that passes by reference and projects alike on every heap that grows from
this one. -/
inductive SettledKey (rt : Runtime im) (h : Heap im) (byIdentity : Bool) (key : RubyValue) : Prop
  | text {s : RStr} : byIdentity = false → key = .str s → SettledKey rt h byIdentity key
  | address {addr : Addr} : byIdentity = true → crossIdentity key = some key →
    identityOf key = some addr → targetOf key = some addr → SettledKey rt h byIdentity key
  | reference {k : HashKey} : shareable h key = true →
    (∀ h', Extends h h' → hashKeyIn (rt.worldAt h') key byIdentity = pure k) →
    (∀ addr, k = .identity addr → targetOf key = some addr) → SettledKey rt h byIdentity key

/-- The keys of every hash that is rebuilt are settled. -/
def KeysSettled (rt : Runtime im) (h : Heap im) (root : RubyValue) : Prop :=
  ∀ addr, Crossed h root (.hash addr) → shareable h (.hash addr) = false →
    ∀ key ∈ hashKeys (h.table addr), SettledKey rt h (h.table addr).compareByIdentity key

/-- Two keys do not project to equal ones. -/
def ToldApart (rt : Runtime im) (h : Heap im) (byIdentity : Bool) (a b : RubyValue) : Prop :=
  ∀ k k' : HashKey, hashKeyIn (rt.worldAt h) a byIdentity = pure k →
    hashKeyIn (rt.worldAt h) b byIdentity = pure k' → HashKey.beq eql k k' = false

/-- No two keys of a hash project to equal ones. -/
def KeysApart (rt : Runtime im) (h : Heap im) (addr : Addr) : Prop :=
  (hashKeys (h.table addr)).Pairwise (ToldApart rt h (h.table addr).compareByIdentity)

/-- What the copy of a hash is given for a key: the key's projection, or the address of its copy. -/
inductive Keyed (rt : Runtime im) (origin : Heap im) (st : CrossState im) (byIdentity : Bool)
    (key : RubyValue) : HashKey → Prop
  | same {k : HashKey} : hashKeyIn (rt.worldAt origin) key byIdentity = pure k →
    (∀ addr, k = .identity addr → targetOf key = some addr ∧ shareable origin key = true) →
    Keyed rt origin st byIdentity key k
  | copied {a b : Addr} {out : RubyValue} : (key, out) ∈ st.built → targetOf key = some a →
    targetOf out = some b → hashKeyIn (rt.worldAt origin) key byIdentity = pure (.identity a) →
    Keyed rt origin st byIdentity key (.identity b)

/-- The rows of a copy are given for the keys of a hash in order, unless two of these fall
together. -/
structure RowsTold (rt : Runtime im) (origin : Heap im) (st : CrossState im) (byIdentity : Bool)
    (keys : List RubyValue) (rows : List (Key eql × (RubyValue × RubyValue))) : Prop where
  apart : rows.length = keys.length ↔ keys.Pairwise (ToldApart rt origin byIdentity)
  told : rows.length = keys.length →
    List.Forall₂ (fun key row => Keyed rt origin st byIdentity key row.1) keys rows

/-- An entry of the table: the node is on the heap the crossing began with and is not shareable, and
its copy is a younger cell of its kind. -/
structure Entry (origin : Heap im) (root : RubyValue) (st : CrossState im)
    (e : RubyValue × RubyValue) : Prop where
  identity : crossIdentity e.1 = some e.1
  inside : Inside origin e.1
  reached : Crossed origin root e.1
  refused : shareable origin e.1 = false
  placed : ∃ b body, e.2 = place e.1 b ∧ targetOf e.2 = some b ∧ origin.next ≤ b ∧
    st.heap.body b = some body ∧ fits e.2 body = true
  text : ∀ a b, e.1 = .str (.shared a) → targetOf e.2 = some b →
    st.heap.cell b = some ⟨.str (origin.str a), false, false, []⟩

theorem Entry.grows {origin : Heap im} {root : RubyValue} {st st' : CrossState im}
    {e : RubyValue × RubyValue} (entry : Entry origin root st e)
    (grown : Extends st.heap st'.heap) : Entry origin root st' e := by
  obtain ⟨identity, inside, reached, refused, ⟨b, body, same, target, young, there, fit⟩, text⟩ :=
    entry
  have old := Heap.lt_next there
  refine ⟨identity, inside, reached, refused, ⟨b, body, same, target, young,
    (grown.body old).trans there, fit⟩, fun a addr str found => ?_⟩
  have here := found.symm.trans target
  cases here
  exact (grown.cells _ old).trans (text a b str target)

/-- What holds between two calls, with some nodes open. -/
structure Inv (rt : Runtime im) (origin : Heap im) (root : RubyValue) (opened : List RubyValue)
    (st : CrossState im) : Prop where
  grown : Extends origin st.heap
  keys : (st.built.map (·.1)).Nodup
  places : (st.built.map fun e => targetOf e.2).Nodup
  entry : ∀ e ∈ st.built, Entry origin root st e
  complete : ∀ e ∈ st.built, e.1 ∉ opened → Complete origin st e.1 e.2
  /-- The nodes to poison are those entered. -/
  sources : st.sources = if st.mode = .move then st.built.map (·.1) else []
  /-- With settled keys nothing raises. -/
  calm : KeysSettled rt origin root → st.parked = false
  /-- With settled keys, a hash keeps its pairs exactly if its keys are told apart. -/
  told : KeysSettled rt origin root → ∀ a b, (.hash a, .hash b) ∈ st.built → .hash a ∉ opened →
    ((st.heap.table b).rows.length = (hashKeys (origin.table a)).length ↔ KeysApart rt origin a)

structure Step (st st' : CrossState im) : Prop where
  grown : Extends st.heap st'.heap
  built : st.built ⊆ st'.built
  mode : st'.mode = st.mode

section

variable {rt : Runtime im} {origin : Heap im} {root : RubyValue} {opened : List RubyValue}
  {st st' st'' : CrossState im}

theorem Step.refl (st : CrossState im) : Step st st := ⟨.refl _, List.Subset.refl _, rfl⟩

theorem Step.trans (first : Step st st') (second : Step st' st'') : Step st st'' where
  grown := first.grown.trans second.grown
  built := List.Subset.trans first.built second.built
  mode := second.mode.trans first.mode

theorem Step.persists (step : Step st st') : Persists st st' where
  built := step.built
  ranges b start finish excl there := by
    rw [step.grown.cells b, there]
    by_contra past
    rw [st.heap.fresh b (Nat.le_of_not_lt past)] at there
    cases there

variable {byIdentity : Bool} {key key' : RubyValue} {k k' : HashKey}

theorem Keyed.mono (persists : Persists st st') (keyed : Keyed rt origin st byIdentity key k) :
    Keyed rt origin st' byIdentity key k := by
  cases keyed with
  | same projects cells => exact .same projects cells
  | copied mem target place projects => exact .copied (persists.built mem) target place projects

theorem toldApart_iff {p p' : HashKey} (projects : hashKeyIn (rt.worldAt origin) key byIdentity = pure p)
    (projects' : hashKeyIn (rt.worldAt origin) key' byIdentity = pure p') :
    ToldApart rt origin byIdentity key key' ↔ HashKey.beq eql p p' = false := by
  refine ⟨fun apart => apart p p' projects projects', fun apart k k' here here' => ?_⟩
  cases projects.symm.trans here
  cases projects'.symm.trans here'
  exact apart

theorem beq_identity {a b : Addr} : HashKey.beq eql (.identity a) (.identity b) = false ↔ a ≠ b := by
  rw [HashKey.beq, beq_eq_false_iff_ne]

theorem Inv.same_entry (inv : Inv rt origin root opened st) {e e' : RubyValue × RubyValue}
    (mem : e ∈ st.built) (member' : e' ∈ st.built) (same : targetOf e.2 = targetOf e'.2) :
    e = e' :=
  inj_on_of_nodup_map inv.places mem member' same

theorem Inv.lt_next (inv : Inv rt origin root opened st) {e : RubyValue × RubyValue}
    (mem : e ∈ st.built) {addr : Addr} (target : targetOf e.2 = some addr) : addr < st.heap.next := by
  obtain ⟨b, body, _, place, _, there, _⟩ := (inv.entry e mem).placed
  rw [target] at place
  cases place
  exact Heap.lt_next there

section

variable (inv : Inv rt origin root opened st) (inside : Inside origin key)
  (inside' : Inside origin key') (keyed : Keyed rt origin st byIdentity key k)
  (keyed' : Keyed rt origin st byIdentity key' k')

include inv inside inside'

/-- A key that passes by reference and one that is rebuilt are never at one address. -/
theorem apart_of_built {a a' b : Addr} {out : RubyValue} (target : targetOf key = some a)
    (passed : shareable origin key = true) (mem : (key', out) ∈ st.built)
    (target' : targetOf key' = some a') (place : targetOf out = some b) : a ≠ a' ∧ a ≠ b := by
  have entry := inv.entry _ mem
  obtain ⟨_, _, _, found, young, _⟩ := entry.placed
  cases found.symm.trans place
  refine ⟨?_, Nat.ne_of_lt (Nat.lt_of_lt_of_le (inside.lt_next target) young)⟩
  rintro rfl
  have same := same_target inside inside' target target'
  have refused := entry.refused
  rw [← same, passed] at refused
  cases refused

include keyed keyed'

/-- Two keys fall together in a copy exactly if they project to equal keys in the source. -/
theorem Keyed.apart_iff :
    HashKey.beq eql k k' = false ↔ ToldApart rt origin byIdentity key key' := by
  cases keyed with
  | same projects cells =>
    cases keyed' with
    | same projects' _ => exact (toldApart_iff projects projects').symm
    | copied mem target' place projects' =>
      rw [toldApart_iff projects projects']
      cases k with
      | identity a =>
        obtain ⟨target, passed⟩ := cells a rfl
        obtain ⟨here, there⟩ := apart_of_built inv inside inside' target passed mem target' place
        exact iff_of_true (beq_identity.mpr there) (beq_identity.mpr here)
      | _ => exact Iff.rfl
  | @copied a b out mem target place projects =>
    cases keyed' with
    | same projects' cells =>
      rw [toldApart_iff projects projects']
      cases k' with
      | identity a' =>
        obtain ⟨target', passed⟩ := cells a' rfl
        obtain ⟨here, there⟩ := apart_of_built inv inside' inside target' passed mem target place
        exact iff_of_true (beq_identity.mpr there.symm) (beq_identity.mpr here.symm)
      | _ => exact Iff.rfl
    | @copied a' b' out' mem' target' place' projects' =>
      rw [toldApart_iff projects projects', beq_identity, beq_identity, not_iff_not]
      constructor
      · rintro rfl
        cases inv.same_entry mem mem' (place.trans place'.symm)
        exact Option.some.inj (target.symm.trans target')
      · rintro rfl
        cases same_target inside inside' target target'
        cases inj_on_of_nodup_map inv.keys mem mem' rfl
        exact Option.some.inj (place.symm.trans place')

end

variable {keys : List RubyValue} {rows rows' : List (Key eql × (RubyValue × RubyValue))}

theorem RowsTold.mono (persists : Persists st st') (told : RowsTold rt origin st byIdentity keys rows) :
    RowsTold rt origin st' byIdentity keys rows where
  apart := told.apart
  told same := (told.told same).imp fun _ _ keyed => keyed.mono persists

/-- One more row: it goes last if its key is told apart from the others, and else takes the place of
one of them. -/
theorem RowsTold.snoc (told : RowsTold rt origin st byIdentity keys rows)
    (inv : Inv rt origin root opened st) (within : ∀ key ∈ keys, Inside origin key)
    (inside : Inside origin key) (few : rows.length ≤ keys.length)
    (keyed : Keyed rt origin st byIdentity key k)
    (stored : AssocList.Absent rows (k : Key eql) ∧ (∃ row, row.1 = k ∧ rows' = rows ++ [row]) ∨
      rows'.length = rows.length ∧ ∃ row ∈ rows, (row.1 == (k : Key eql)) = true) :
    RowsTold rt origin st byIdentity (keys ++ [key]) rows' := by
  have split : (keys ++ [key]).Pairwise (ToldApart rt origin byIdentity) ↔
      rows.length = keys.length ∧ ∀ other ∈ keys, ToldApart rt origin byIdentity other key := by
    rw [pairwise_append, told.apart]
    simp
  rcases stored with ⟨absent, row, rfl, rfl⟩ | ⟨kept, row, there, equal⟩
  · constructor
    · rw [split, length_append, length_append, length_singleton, length_singleton,
        Nat.add_right_cancel_iff, iff_self_and]
      intro same other mem
      obtain ⟨row, there, first⟩ := forall₂_meets (told.told same) mem
      exact (first.apart_iff inv (within other mem) inside keyed).mp (absent row there)
    · intro same
      rw [length_append, length_append, length_singleton, length_singleton,
        Nat.add_right_cancel_iff] at same
      exact rel_append (told.told same) (.cons keyed .nil)
  · have short : ¬rows'.length = (keys ++ [key]).length := by
      rw [kept, length_append, length_singleton]
      omega
    refine ⟨iff_of_false short fun apart => ?_, fun same => absurd same short⟩
    obtain ⟨same, apart⟩ := split.mp apart
    obtain ⟨other, mem, first⟩ := forall₂_meets (told.told same).flip there
    have differ := (first.apart_iff inv (within other mem) inside keyed).mpr (apart other mem)
    exact Bool.false_ne_true (differ.symm.trans equal)

end

structure Writes (dst : Addr) (st st' : CrossState im) : Prop where
  cells : ∀ addr, addr ≠ dst → st'.heap.cell addr = st.heap.cell addr
  next : st.heap.next ≤ st'.heap.next
  anyMoved : st'.heap.anyMoved = st.heap.anyMoved
  built : st'.built = st.built
  sources : st'.sources = st.sources
  mode : st'.mode = st.mode

/-- A node has been entered since a state and is open. -/
structure Under (rt : Runtime im) (origin : Heap im) (root : RubyValue) (opened : List RubyValue)
    (v : RubyValue) (dst : Addr) (base st : CrossState im) : Prop where
  /-- What holds between two calls. -/
  inv : Inv rt origin root (v :: opened) st
  entered : (v, place v dst) ∈ st.built
  fresh : base.heap.next ≤ dst
  step : Step base st

section

variable {rt : Runtime im} {origin : Heap im} {root : RubyValue} {opened : List RubyValue}
  {v : RubyValue} {dst : Addr} {base st st' : CrossState im}

theorem place_target {v out : RubyValue} {a b : Addr} (identity : crossIdentity v = some v)
    (same : out = place v a) (target : targetOf out = some b) : a = b := by
  subst same
  cases v <;> cases identity <;> exact Option.some.inj target

section

variable (under : Under rt origin root opened v dst base st)

include under

theorem Under.target :
    targetOf (place v dst) = some dst := by
  obtain ⟨b, body, same, target, _⟩ := (under.inv.entry _ under.entered).placed
  have identity := (under.inv.entry _ under.entered).identity
  obtain rfl := place_target identity rfl target
  exact target

/-- The copy is a younger cell of the node's kind. -/
theorem Under.placed : ∃ body,
    origin.next ≤ dst ∧ st.heap.body dst = some body ∧ fits (place v dst) body = true := by
  obtain ⟨b, body, _, target, young, there, kind⟩ := (under.inv.entry _ under.entered).placed
  rw [under.target] at target
  cases target
  exact ⟨body, young, there, kind⟩

theorem Under.lt_next : dst < st.heap.next := by
  obtain ⟨body, _, there, _⟩ := under.placed
  exact Heap.lt_next there

theorem Under.call (inv : Inv rt origin root (v :: opened) st') (step : Step st st') :
    Under rt origin root opened v dst base st' where
  inv := inv
  entered := step.built under.entered
  fresh := under.fresh
  step := under.step.trans step

theorem Under.persists (writes : Writes dst st st') :
    Persists st st' where
  built := by rw [writes.built]; exact List.Subset.refl _
  ranges b start finish excl there := by
    rw [writes.cells b, there]
    rintro rfl
    obtain ⟨body, _, found, kind⟩ := under.placed
    unfold Heap.body at found
    rw [there] at found
    cases found
    have identity := (under.inv.entry _ under.entered).identity
    cases v <;> cases identity <;> cases kind

theorem Under.write (writes : Writes dst st st') (calm : KeysSettled rt origin root → st'.parked = false)
    (container : ∀ s, v ≠ .str s) {body : Body im}
    (there : st'.heap.body dst = some body) (kind : fits (place v dst) body = true) :
    Under rt origin root opened v dst base st' where
  inv := by
    have persists := under.persists writes
    obtain ⟨_, young, _⟩ := under.placed
    have others : ∀ e ∈ st.built, ∀ addr, targetOf e.2 = some addr → e ≠ (v, place v dst) →
        st'.heap.cell addr = st.heap.cell addr := by
      intro e mem addr target other
      refine writes.cells addr ?_
      rintro rfl
      exact other (under.inv.same_entry mem under.entered (target.trans under.target.symm))
    refine ⟨⟨?_, ?_, ?_⟩, ?_, ?_, ?_, ?_, ?_, calm, ?_⟩
    · intro addr old
      rw [writes.cells addr (Nat.ne_of_lt (Nat.lt_of_lt_of_le old young))]
      exact under.inv.grown.cells addr old
    · exact Nat.le_trans under.inv.grown.next writes.next
    · exact writes.anyMoved.trans under.inv.grown.anyMoved
    · rw [writes.built]
      exact under.inv.keys
    · rw [writes.built]
      exact under.inv.places
    · intro e mem
      rw [writes.built] at mem
      obtain ⟨identity, inside, reached, refused, ⟨b, body', same, target, old, found, fit⟩, text⟩ :=
        under.inv.entry e mem
      refine ⟨identity, inside, reached, refused, ?_, fun a addr str place => ?_⟩
      · by_cases here : e = (v, place v dst)
        · subst here
          rw [under.target] at target
          cases target
          exact ⟨dst, body, rfl, under.target, young, there, kind⟩
        · refine ⟨b, body', same, target, old, ?_, fit⟩
          unfold Heap.body
          rw [others e mem b target here]
          exact found
      · refine (others e mem addr place ?_).trans (text a addr str place)
        rintro rfl
        exact container _ str
    · intro e mem closed
      rw [writes.built] at mem
      refine (under.inv.complete e mem closed).mono persists fun addr target => ?_
      refine others e mem addr target ?_
      rintro rfl
      exact closed mem_cons_self
    · rw [writes.sources, writes.mode, writes.built]
      exact under.inv.sources
    · intro settled a b mem closed
      rw [writes.built] at mem
      have same : st'.heap.table b = st.heap.table b := by
        unfold Heap.table Heap.body
        rw [others _ mem b rfl]
        intro here
        exact closed (mem_cons.mpr (.inl (Prod.mk.inj here).1))
      rw [same]
      exact under.inv.told settled a b mem closed
  entered := by
    rw [writes.built]
    exact under.entered
  fresh := under.fresh
  step := by
    refine ⟨⟨fun addr old => ?_, ?_, ?_⟩, ?_, ?_⟩
    · rw [writes.cells addr (Nat.ne_of_lt (Nat.lt_of_lt_of_le old under.fresh))]
      exact under.step.grown.cells addr old
    · exact Nat.le_trans under.step.grown.next writes.next
    · exact writes.anyMoved.trans under.step.grown.anyMoved
    · rw [writes.built]
      exact under.step.built
    · exact writes.mode.trans under.step.mode

theorem Under.close (complete : Complete origin st v (place v dst))
    (told : KeysSettled rt origin root → ∀ a, v = .hash a →
      ((st.heap.table dst).rows.length = (hashKeys (origin.table a)).length ↔
        KeysApart rt origin a)) :
    Inv rt origin root opened st where
  grown := under.inv.grown
  keys := under.inv.keys
  places := under.inv.places
  entry := under.inv.entry
  complete e mem closed := by
    by_cases here : e.1 = v
    · have same : e = (v, place v dst) :=
        inj_on_of_nodup_map under.inv.keys mem under.entered here
      subst same
      exact complete
    · exact under.inv.complete e mem (by simp [here, closed])
  sources := under.inv.sources
  calm := under.inv.calm
  told settled a b mem closed := by
    by_cases here : .hash a = v
    · subst here
      have same : (.hash a, .hash b) = (RubyValue.hash a, place (.hash a) dst) :=
        inj_on_of_nodup_map under.inv.keys mem under.entered rfl
      cases same
      exact told settled a rfl
    · exact under.inv.told settled a b mem (by simp [here, closed])

end

theorem alloc_extends (h : Heap im) (cell : Cell im) : Extends h (h.alloc cell).2 where
  cells _ old := if_neg (Nat.ne_of_lt old)
  next := Nat.le_succ _
  anyMoved := rfl

def CrossState.enter (st : CrossState im) (v : RubyValue) (body : Body im) (frozen : Bool) :
    CrossState im :=
  { st with
    heap := (st.heap.alloc ⟨body, frozen, false, []⟩).2
    built := st.built ++ [(v, place v st.heap.next)]
    sources := if st.mode = .move then st.sources ++ [v] else st.sources }

theorem Inv.enter (inv : Inv rt origin root opened st) {body : Body im} (frozen : Bool)
    (identity : crossIdentity v = some v) (inside : Inside origin v)
    (reached : Crossed origin root v)
    (refused : shareable origin v = false) (unmet : v ∉ st.built.map (·.1))
    (target : targetOf (place v st.heap.next) = some st.heap.next)
    (kind : fits (place v st.heap.next) body = true)
    (text : ∀ a, v = .str (.shared a) → body = .str (origin.str a) ∧ frozen = false) :
    Under rt origin root opened v st.heap.next st (st.enter v body frozen) := by
  have grown : Extends st.heap (st.enter v body frozen).heap := alloc_extends _ _
  have step : Step st (st.enter v body frozen) := ⟨grown, subset_append_left _ _, rfl⟩
  have old : ∀ e ∈ st.built, ∀ addr, targetOf e.2 = some addr → addr < st.heap.next :=
    fun _ mem _ found => inv.lt_next mem found
  refine ⟨⟨inv.grown.trans grown, ?_, ?_, ?_, ?_, ?_, inv.calm, ?_⟩, ?_, Nat.le_refl _, step⟩
  · change ((st.built ++ [_]).map _).Nodup
    rw [map_append, nodup_append]
    refine ⟨inv.keys, nodup_singleton _, ?_⟩
    rintro a mem b new rfl
    rw [map_singleton, mem_singleton] at new
    subst new
    exact unmet mem
  · change ((st.built ++ [_]).map _).Nodup
    rw [map_append, nodup_append]
    refine ⟨inv.places, nodup_singleton _, ?_⟩
    rintro a mem b new rfl
    rw [map_singleton, mem_singleton, target] at new
    subst new
    obtain ⟨e, there, found⟩ := mem_map.mp mem
    exact Nat.lt_irrefl _ (old e there _ found)
  · intro e mem
    rcases mem_append.mp mem with earlier | new
    · exact (inv.entry e earlier).grows grown
    · rw [mem_singleton.mp new]
      have cell : (st.enter v body frozen).heap.cell st.heap.next =
          some ⟨body, frozen, false, []⟩ := if_pos rfl
      refine ⟨identity, inside, reached, refused, ⟨_, body, rfl, target, inv.grown.next, ?_, kind⟩,
        fun a b str found => ?_⟩
      · unfold Heap.body
        rw [cell]
        rfl
      · have here := found.symm.trans target
        cases here
        obtain ⟨rfl, rfl⟩ := text a str
        exact cell
  · intro e mem closed
    rcases mem_append.mp mem with earlier | new
    · have still : e.1 ∉ opened := fun there => closed (mem_cons_of_mem _ there)
      exact (inv.complete e earlier still).mono step.persists fun addr found =>
        grown.cells addr (old e earlier addr found)
    · rw [mem_singleton.mp new] at closed
      exact absurd mem_cons_self closed
  · change (if st.mode = .move then st.sources ++ [v] else st.sources) =
      if st.mode = .move then (st.built ++ [_]).map _ else []
    rw [inv.sources]
    split
    · rw [map_append]
      rfl
    · rfl
  · intro settled a b mem closed
    rcases mem_append.mp mem with earlier | new
    · have same : (st.enter v body frozen).heap.table b = st.heap.table b := by
        unfold Heap.table
        rw [grown.body (old _ earlier b rfl)]
      rw [same]
      exact inv.told settled a b earlier fun there => closed (mem_cons_of_mem _ there)
    · cases mem_singleton.mp new
      exact absurd mem_cons_self closed
  · exact mem_append_right _ (mem_singleton.mpr rfl)

end

end Zeo.Ractor
