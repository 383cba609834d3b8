import Mathlib.Data.List.Perm.Subperm
import Mathlib.Logic.Relation
import Zeo.Lib.Splice

/-!
# The ancestor chain of a class at compile time

A class's chain starts as the class followed by its superclass's chain, and every mixin of the
class body changes it in document order. An include looks for each module of the mixed-in chain
everywhere, a prepend only ahead of the class.
-/

namespace Zeo.Analyze

open Zeo.Lib List Cursor

abbrev ClassId := Nat

/-- A mixin of a class body: the module, and whether it is prepended. -/
abbrev Mixin := ClassId × Bool

/-- What the linearization reads of a `ClassInfo`. -/
structure ClassInfo where
  parent : Option ClassId
  mixinOrder : List Mixin

structure ClassTable where
  classes : List ClassInfo
  parents : ∀ info ∈ classes, ∀ p, info.parent = some p → p < classes.length
  mixins : ∀ info ∈ classes, ∀ m ∈ info.mixinOrder, m.1 < classes.length

/-- `Compiler::class`. -/
def ClassTable.info (table : ClassTable) (id : ClassId) : ClassInfo :=
  (table.classes[id]?).getD ⟨none, []⟩

/-- A chain under construction: the chain and the tracked index of its class. -/
abbrev Tracked := List ClassId × Nat

/-- The chain of a mixin, and whether it is prepended. -/
abbrev SubChain := List ClassId × Bool

/-- One round of the loop of `mix_into`, with the insertion point. -/
def mixStep (isPrepend : Bool) (state : Tracked × Nat) (m : ClassId) : Tracked × Nat :=
  let ((chain, origin), ins) := state
  let seen := if isPrepend then (chain.take origin).idxOf? m else chain.idxOf? m
  match seen with
  | some p => ((chain, origin), p + 1)
  | none => ((chain.insertIdx ins m, if isPrepend then origin + 1 else origin), ins + 1)

def mixInto (state : Tracked) (sub : List ClassId) (isPrepend : Bool) : Tracked :=
  (sub.foldl (mixStep isPrepend) (state, if isPrepend then 0 else state.2 + 1)).1

def mixAll (start : Tracked) (mixins : List SubChain) : Tracked :=
  mixins.foldl (fun state mixin => mixInto state mixin.1 mixin.2) start

def ClassInfo.inherited (info : ClassInfo) (chains : ClassId → List ClassId) : List ClassId :=
  match info.parent with
  | some p => chains p
  | none => []

def ClassInfo.subs (info : ClassInfo) (chains : ClassId → List ClassId) : List SubChain :=
  info.mixinOrder.map fun m => (chains m.1, m.2)

/-- `chain_of`, to a bounded depth. The recursion path cuts a cycle off. -/
def chainOf (table : ClassTable) : Nat → List ClassId → ClassId → List ClassId
  | 0, _, _ => []
  | depth + 1, active, id =>
    if id ∈ active then []
    else
      let chains := chainOf table depth (id :: active)
      (mixAll (id :: (table.info id).inherited chains, 0) ((table.info id).subs chains)).1

/-- `compute_ancestors`. A recursion path has no class twice, so it is never longer than the
table. -/
def computeAncestors (table : ClassTable) (id : ClassId) : List ClassId :=
  chainOf table (table.classes.length + 1) [] id

section Mixins

variable {chain sub : List ClassId} {origin : Nat}

variable (state : Tracked)

theorem mixInto_include (sub : List ClassId) :
    mixInto state sub false = ((merge ⟨state.1, state.2 + 1⟩ sub).items, state.2) := by
  have loop : ∀ (sub : List ClassId) (c : Cursor ClassId),
      sub.foldl (mixStep false) ((c.items, state.2), c.point) =
        (((c.merge sub).items, state.2), (c.merge sub).point) := by
    intro sub
    induction sub with
    | nil => exact fun _ => rfl
    | cons m sub ih =>
      intro c
      have step : mixStep false ((c.items, state.2), c.point) m =
          (((c.place m).items, state.2), (c.place m).point) := by
        unfold mixStep place
        simp only
        cases c.items.idxOf? m <;> rfl
      rw [foldl_cons, step, ih]
      rfl
  have run := loop sub ⟨state.1, state.2 + 1⟩
  change (sub.foldl (mixStep false) ((state.1, state.2), state.2 + 1)).1 = _
  rw [run]

theorem mixInto_area (area rest sub : List ClassId) :
    mixInto (area ++ rest, area.length) sub true =
      ((merge ⟨area, 0⟩ sub).items ++ rest, (merge ⟨area, 0⟩ sub).items.length) := by
  have loop : ∀ (sub : List ClassId) (c : Cursor ClassId), c.Fits →
      sub.foldl (mixStep true) ((c.items ++ rest, c.items.length), c.point) =
        (((c.merge sub).items ++ rest, (c.merge sub).items.length), (c.merge sub).point) := by
    intro sub
    induction sub with
    | nil => exact fun _ _ => rfl
    | cons m sub ih =>
      intro c fits
      have step : mixStep true ((c.items ++ rest, c.items.length), c.point) m =
          (((c.place m).items ++ rest, (c.place m).items.length), (c.place m).point) := by
        unfold mixStep place
        simp only [if_true, take_left]
        cases c.items.idxOf? m with
        | some p => rfl
        | none =>
          simp only [insertIdx_append_left _ _ fits, length_insertIdx_of_le_length fits]
      rw [foldl_cons, step, ih _ (place_fits c m fits)]
      rfl
  have run := loop sub ⟨area, 0⟩ (Nat.zero_le _)
  change (sub.foldl (mixStep true) ((area ++ rest, area.length), 0)).1 = _
  rw [run]

def Tracks (state : Tracked) : Prop := state.2 < state.1.length

theorem start_tracks (id : ClassId) (rest : List ClassId) : Tracks (id :: rest, 0) :=
  Nat.succ_pos _

theorem mixInto_prepend (sub : List ClassId) (tracks : Tracks state) :
    mixInto state sub true =
      ((merge ⟨state.1.take state.2, 0⟩ sub).items ++ state.1.drop state.2,
        (merge ⟨state.1.take state.2, 0⟩ sub).items.length) := by
  have length : (state.1.take state.2).length = state.2 := by
    rw [length_take]
    exact Nat.min_eq_left (Nat.le_of_lt tracks)
  have area := mixInto_area (state.1.take state.2) (state.1.drop state.2) sub
  rw [take_append_drop, length] at area
  exact area

theorem include_fits (tracks : Tracks state) :
    Cursor.Fits ⟨state.1, state.2 + 1⟩ := tracks

theorem mixInto_tracks (sub : List ClassId) (isPrepend : Bool) (tracks : Tracks state) :
    Tracks (mixInto state sub isPrepend) := by
  cases isPrepend with
  | false =>
    rw [mixInto_include]
    have more := merge_length ⟨state.1, state.2 + 1⟩ sub (include_fits state tracks)
    exact Nat.lt_of_lt_of_le tracks more
  | true =>
    rw [mixInto_prepend state sub tracks]
    unfold Tracks at *
    rw [length_append, length_drop]
    omega

theorem mem_mixInto (sub : List ClassId) (isPrepend : Bool) (tracks : Tracks state) (x : ClassId) :
    x ∈ (mixInto state sub isPrepend).1 ↔ x ∈ state.1 ∨ x ∈ sub := by
  cases isPrepend with
  | false =>
    rw [mixInto_include]
    exact mem_merge _ sub x (include_fits state tracks)
  | true =>
    have split : x ∈ state.1 ↔ x ∈ state.1.take state.2 ∨ x ∈ state.1.drop state.2 := by
      rw [← mem_append, take_append_drop]
    rw [mixInto_prepend state sub tracks]
    rw [mem_append, mem_merge _ _ _ (Nat.zero_le _)]
    grind

variable (start : Tracked)

theorem mixAll_snoc (first : List SubChain) (last : SubChain) :
    mixAll start (first ++ [last]) = mixInto (mixAll start first) last.1 last.2 :=
  foldl_append

theorem mixAll_tracks (mixins : List SubChain) (tracks : Tracks start) :
    Tracks (mixAll start mixins) := by
  induction mixins using List.reverseRecOn with
  | nil => exact tracks
  | append_singleton mixins last ih =>
    rw [mixAll_snoc]
    exact mixInto_tracks _ _ _ ih

theorem mem_mixAll (mixins : List SubChain) (tracks : Tracks start) (x : ClassId) :
    x ∈ (mixAll start mixins).1 ↔ x ∈ start.1 ∨ ∃ m ∈ mixins, x ∈ m.1 := by
  induction mixins using List.reverseRecOn with
  | nil => simp [mixAll]
  | append_singleton mixins last ih =>
    rw [mixAll_snoc, mem_mixInto _ _ _ (mixAll_tracks start mixins tracks), ih]
    simp only [mem_append, mem_singleton, or_and_right, exists_or, exists_eq_left, or_assoc]

/-- Every mixin of a body, at the chain it meets. -/
def AtEach (start : Tracked) (mixins : List SubChain) (holds : Tracked → SubChain → Prop) : Prop :=
  ∀ before mixin after, mixins = before ++ mixin :: after → holds (mixAll start before) mixin

theorem atEach_snoc (mixins : List SubChain) (last : SubChain) (holds : Tracked → SubChain → Prop) :
    AtEach start (mixins ++ [last]) holds ↔
      AtEach start mixins holds ∧ holds (mixAll start mixins) last :=
  forall_place_snoc mixins last

end Mixins

namespace ClassTable

variable (table : ClassTable)

/-- The classes that `chain_of` goes on to. -/
def Edge (c d : ClassId) : Prop :=
  (table.info c).parent = some d ∨ ∃ m ∈ (table.info c).mixinOrder, m.1 = d

/-- No class leads back to itself through superclasses and mixins. -/
def Acyclic : Prop := ∀ c, ¬ Relation.TransGen table.Edge c c

theorem edge_lt {c d : ClassId} (edge : table.Edge c d) : d < table.classes.length := by
  unfold Edge info at edge
  cases known : table.classes[c]? with
  | none =>
    rw [known] at edge
    simp at edge
  | some info =>
    have mem : info ∈ table.classes := mem_of_getElem? known
    rw [known] at edge
    rcases edge with parent | ⟨m, listed, rfl⟩
    · exact table.parents info mem d parent
    · exact table.mixins info mem m listed

end ClassTable

section Recursion

variable {table : ClassTable}

variable {active : List ClassId}

theorem path_length_le {bound : Nat} (distinct : active.Nodup)
    (inTable : ∀ a ∈ active, a < bound) : active.length ≤ bound := by
  have within : active ⊆ List.range bound := fun a mem => mem_range.mpr (inTable a mem)
  have shorter := (distinct.subperm within).length_le
  rwa [length_range] at shorter

variable {id : ClassId} {chains chains' : ClassId → List ClassId}

theorem inherited_congr (same : ∀ d, table.Edge id d → chains d = chains' d) :
    (table.info id).inherited chains = (table.info id).inherited chains' := by
  unfold ClassInfo.inherited
  cases parent : (table.info id).parent with
  | none => rfl
  | some p => exact same p (.inl parent)

theorem subs_congr (same : ∀ d, table.Edge id d → chains d = chains' d) :
    (table.info id).subs chains = (table.info id).subs chains' := by
  apply map_congr_left
  intro m listed
  rw [same m.1 (Or.inr ⟨m, listed, rfl⟩)]

theorem chainOf_cut (depth : Nat) (known : id ∈ active) :
    chainOf table (depth + 1) active id = [] := if_pos known

theorem chainOf_fresh (depth : Nat) (fresh : id ∉ active) :
    chainOf table (depth + 1) active id =
      (mixAll (id :: (table.info id).inherited (chainOf table depth (id :: active)), 0)
        ((table.info id).subs (chainOf table depth (id :: active)))).1 := if_neg fresh

/-- `chain_of` reads the chains of the superclass and the mixins only. -/
theorem chainOf_congr {depth depth' : Nat} {active' : List ClassId}
    (cut : id ∈ active ↔ id ∈ active')
    (same : id ∉ active → ∀ d, table.Edge id d →
      chainOf table depth (id :: active) d = chainOf table depth' (id :: active') d) :
    chainOf table (depth + 1) active id = chainOf table (depth' + 1) active' id := by
  by_cases known : id ∈ active
  · rw [chainOf_cut depth known, chainOf_cut depth' (cut.mp known)]
  · have fresh' : id ∉ active' := fun other => known (cut.mpr other)
    rw [chainOf_fresh depth known, chainOf_fresh depth' fresh',
      inherited_congr (same known), subs_congr (same known)]

/-- The depth does not matter once it exceeds what the path leaves of the table. -/
theorem chainOf_deeper {depth : Nat} : ∀ (active : List ClassId) (id : ClassId), active.Nodup →
    (∀ a ∈ active, a < table.classes.length) → id < table.classes.length →
    table.classes.length < depth + active.length →
    chainOf table depth active id = chainOf table (depth + 1) active id := by
  induction depth with
  | zero =>
    intro active id distinct inTable _ enough
    have short := path_length_le distinct inTable
    omega
  | succ depth ih =>
    intro active id distinct inTable here enough
    refine chainOf_congr .rfl fun fresh d edge => ?_
    apply ih (id :: active) d
    · exact nodup_cons.mpr ⟨fresh, distinct⟩
    · intro a mem
      cases mem_cons.mp mem with
      | inl same => exact same ▸ here
      | inr old => exact inTable a old
    · exact table.edge_lt edge
    · rw [length_cons]
      omega

/-- The path does not matter when nothing on it can be reached. -/
theorem chainOf_path (acyclic : table.Acyclic) (depth : Nat) :
    ∀ (active active' : List ClassId) (id : ClassId),
      (∀ a ∈ active, ¬ Relation.ReflTransGen table.Edge id a) →
      (∀ a ∈ active', ¬ Relation.ReflTransGen table.Edge id a) →
      chainOf table depth active id = chainOf table depth active' id := by
  induction depth with
  | zero => exact fun _ _ _ _ _ => rfl
  | succ depth ih =>
    intro active active' id apart apart'
    refine chainOf_congr (by grind) fun _ d edge => ?_
    have beyond : ∀ path : List ClassId, (∀ a ∈ path, ¬ Relation.ReflTransGen table.Edge id a) →
        ∀ a ∈ id :: path, ¬ Relation.ReflTransGen table.Edge d a := by
      intro path clear a mem reached
      cases mem_cons.mp mem with
      | inl same =>
        rw [same] at reached
        exact acyclic id (Relation.TransGen.head' edge reached)
      | inr old => exact clear a old (.head edge reached)
    exact ih _ _ d (beyond active apart) (beyond active' apart')

/-- In an acyclic table the chain of a class is its mixins replayed over its superclass's chain. -/
theorem computeAncestors_eq (acyclic : table.Acyclic)
    (here : id < table.classes.length) :
    computeAncestors table id =
      (mixAll (id :: (table.info id).inherited (computeAncestors table), 0)
        ((table.info id).subs (computeAncestors table))).1 := by
  have part : ∀ d, table.Edge id d →
      chainOf table table.classes.length [id] d = computeAncestors table d := by
    intro d edge
    have deeper : chainOf table table.classes.length [id] d =
        chainOf table (table.classes.length + 1) [id] d := by
      apply chainOf_deeper
      · simp
      · intro a mem
        exact mem_singleton.mp mem ▸ here
      · exact table.edge_lt edge
      · exact Nat.lt_succ_self _
    have free : ∀ a ∈ [id], ¬ Relation.ReflTransGen table.Edge d a := by
      intro a mem reached
      rw [mem_singleton.mp mem] at reached
      exact acyclic id (Relation.TransGen.head' edge reached)
    rw [deeper]
    exact chainOf_path acyclic _ _ _ d free (by simp)
  unfold computeAncestors
  rw [chainOf_fresh _ not_mem_nil, inherited_congr part, subs_congr part]
  rfl

theorem reached_of_mem_chainOf {depth : Nat} : ∀ (active : List ClassId) (id x : ClassId),
    x ∈ chainOf table depth active id → Relation.ReflTransGen table.Edge id x := by
  induction depth with
  | zero => exact fun _ _ _ mem => nomatch mem
  | succ depth ih =>
    intro active id x mem
    by_cases known : id ∈ active
    · rw [chainOf_cut depth known] at mem
      exact nomatch mem
    · rw [chainOf_fresh depth known, mem_mixAll _ _ (start_tracks _ _), mem_cons] at mem
      rcases mem with (rfl | inherited) | ⟨sub, listed, inside⟩
      · exact .refl
      · unfold ClassInfo.inherited at inherited
        cases parent : (table.info id).parent with
        | none =>
          rw [parent] at inherited
          exact nomatch inherited
        | some p =>
          rw [parent] at inherited
          exact .head (.inl parent) (ih _ p x inherited)
      · obtain ⟨m, mixed, rfl⟩ := mem_map.mp listed
        exact .head (.inr ⟨m, mixed, rfl⟩) (ih _ m.1 x inside)

/-- A chain has what its class leads to, and nothing else. -/
theorem mem_computeAncestors (acyclic : table.Acyclic) (here : id < table.classes.length)
    {x : ClassId} : x ∈ computeAncestors table id ↔ Relation.ReflTransGen table.Edge id x := by
  refine ⟨reached_of_mem_chainOf _ _ _, fun reached => ?_⟩
  induction reached using Relation.ReflTransGen.head_induction_on with
  | refl =>
    rw [computeAncestors_eq acyclic here, mem_mixAll _ _ (start_tracks _ _)]
    exact .inl mem_cons_self
  | head edge _ ih =>
    have inside := ih (table.edge_lt edge)
    rw [computeAncestors_eq acyclic here, mem_mixAll _ _ (start_tracks _ _)]
    rcases edge with parent | ⟨m, mixed, rfl⟩
    · refine .inl (mem_cons_of_mem _ ?_)
      rwa [ClassInfo.inherited, parent]
    · exact .inr ⟨_, mem_map_of_mem mixed, inside⟩

theorem not_mem_ancestors (acyclic : table.Acyclic) {d : ClassId} (edge : table.Edge id d) :
    id ∉ computeAncestors table d := by
  intro mem
  have reached := reached_of_mem_chainOf _ _ _ mem
  exact acyclic id (Relation.TransGen.head' edge reached)

theorem not_mem_inherited (acyclic : table.Acyclic) (id : ClassId) :
    id ∉ (table.info id).inherited (computeAncestors table) := by
  unfold ClassInfo.inherited
  cases parent : (table.info id).parent with
  | none => exact not_mem_nil
  | some p => exact not_mem_ancestors acyclic (.inl parent)

theorem not_mem_mixin (acyclic : table.Acyclic) :
    ∀ mixin ∈ (table.info id).subs (computeAncestors table), id ∉ mixin.1 := by
  intro mixin listed
  obtain ⟨m, mixed, rfl⟩ := mem_map.mp listed
  exact not_mem_ancestors acyclic (.inr ⟨m, mixed, rfl⟩)

end Recursion

section Suffix

variable {tail : List ClassId}

def Below (tail : List ClassId) (state : Tracked) : Prop :=
  tail.length < (state.1.drop state.2).length ∧ ∀ x ∈ tail, x ∈ state.1

section

variable {state : Tracked} (below : Below tail state)

include below

theorem Below.tracks : Tracks state := by
  have room := below.1
  rw [length_drop] at room
  unfold Tracks
  omega

theorem Below.mixInto (sub : List ClassId) (isPrepend : Bool) :
    Below tail (mixInto state sub isPrepend) := by
  have tracks := below.tracks
  have room := below.1
  refine ⟨?_, fun x mem => ?_⟩
  · cases isPrepend with
    | false =>
      have more := merge_length ⟨state.1, state.2 + 1⟩ sub (include_fits state tracks)
      rw [mixInto_include, length_drop]
      rw [length_drop] at room
      exact Nat.lt_of_lt_of_le room (Nat.sub_le_sub_right more _)
    | true =>
      rw [mixInto_prepend state sub tracks, drop_left]
      exact room
  · rw [mem_mixInto state sub isPrepend tracks]
    exact .inl (below.2 x mem)

theorem suffix_of_mixInto {sub : List ClassId} {isPrepend : Bool}
    (still : tail <:+ (mixInto state sub isPrepend).1) : tail <:+ state.1 := by
  have tracks := below.tracks
  cases isPrepend with
  | false =>
    rw [mixInto_include] at still
    exact suffix_of_merge _ (include_fits state tracks) below.2 still
  | true =>
    rw [mixInto_prepend state sub tracks] at still
    have behind : tail <:+ state.1.drop state.2 :=
      suffix_of_suffix_length_le still (suffix_append _ _) (Nat.le_of_lt below.1)
    exact behind.trans (drop_suffix _ _)

end

/-- No module that is new to the chain comes, in the mixed-in chain, right behind one that the
chain has in its tail only. -/
def TailClear (tail chain sub : List ClassId) : Prop :=
  Undisturbed (OnlyIn tail (chain.take (chain.length - tail.length))) chain sub

theorem suffix_mixInto_iff {state : Tracked} (below : Below tail state) (place : tail <:+ state.1)
    (mixin : SubChain) :
    tail <:+ (mixInto state mixin.1 mixin.2).1 ↔
      (mixin.2 = false → TailClear tail state.1 mixin.1) := by
  have tracks := below.tracks
  have room := below.1
  rw [length_drop] at room
  cases verb : mixin.2 with
  | false =>
    have split : state.1 = state.1.take (state.1.length - tail.length) ++ tail := by
      obtain ⟨own, shape⟩ := place
      rw [← shape, length_append, Nat.add_sub_cancel, take_left]
    have ahead : state.2 + 1 ≤ (state.1.take (state.1.length - tail.length)).length := by
      rw [length_take]
      omega
    have iff := suffix_merge_iff tail mixin.1 ahead
    rw [mixInto_include]
    unfold TailClear
    grind
  | true =>
    rw [mixInto_prepend state mixin.1 tracks]
    have behind : tail <:+ state.1.drop state.2 := by
      refine suffix_of_suffix_length_le place (drop_suffix _ _) ?_
      rw [length_drop]
      omega
    have kept : tail <:+ (merge ⟨state.1.take state.2, 0⟩ mixin.1).items ++
        state.1.drop state.2 := behind.trans (suffix_append _ _)
    simp [kept]

theorem below_mixAll {start : Tracked} (below : Below tail start)
    (mixins : List SubChain) : Below tail (mixAll start mixins) := by
  induction mixins using List.reverseRecOn with
  | nil => exact below
  | append_singleton mixins last ih =>
    rw [mixAll_snoc]
    exact ih.mixInto last.1 last.2

/-- A tail stays in place exactly when no include disturbs it. -/
theorem suffix_mixAll_iff {start : Tracked} (below : Below tail start) (place : tail <:+ start.1)
    (mixins : List SubChain) :
    tail <:+ (mixAll start mixins).1 ↔ AtEach start mixins fun state mixin =>
      mixin.2 = false → TailClear tail state.1 mixin.1 := by
  induction mixins using List.reverseRecOn with
  | nil =>
    refine ⟨fun _ before mixin after split => ?_, fun _ => place⟩
    exact absurd split (by simp)
  | append_singleton mixins last ih =>
    have belowAll := below_mixAll below mixins
    rw [mixAll_snoc, atEach_snoc, ← ih]
    constructor
    · intro still
      have before := suffix_of_mixInto belowAll still
      exact ⟨before, (suffix_mixInto_iff belowAll before last).mp still⟩
    · rintro ⟨before, clear⟩
      exact (suffix_mixInto_iff belowAll before last).mpr clear

end Suffix

/-- The chain of a superclass is the end of the chain of its class exactly when no include of the
class body brings a module that is new to the class right behind one that the class has from its
superclass only. -/
theorem superclass_suffix_iff (table : ClassTable) (acyclic : table.Acyclic) (c p : ClassId)
    (parent : (table.info c).parent = some p) :
    computeAncestors table p <:+ computeAncestors table c ↔
      AtEach (c :: computeAncestors table p, 0) ((table.info c).subs (computeAncestors table))
        fun state mixin => mixin.2 = false →
          TailClear (computeAncestors table p) state.1 mixin.1 := by
  have here : c < table.classes.length := by
    by_contra past
    have outside : table.info c = ⟨none, []⟩ := by
      unfold ClassTable.info
      rw [List.getElem?_eq_none (Nat.le_of_not_lt past)]
      rfl
    rw [outside] at parent
    exact nomatch parent
  have inherited : (table.info c).inherited (computeAncestors table) = computeAncestors table p := by
    unfold ClassInfo.inherited
    rw [parent]
  rw [computeAncestors_eq acyclic here, inherited]
  refine suffix_mixAll_iff ⟨?_, ?_⟩ (suffix_cons _ _) _
  · exact Nat.lt_succ_self _
  · exact fun x member => mem_cons_of_mem c member

theorem acyclic_of_descending {table : ClassTable}
    (parents : ∀ c < table.classes.length, ∀ p ∈ (table.info c).parent, p < c)
    (mixins : ∀ c < table.classes.length, ∀ m ∈ (table.info c).mixinOrder, m.1 < c) :
    table.Acyclic := by
  have smaller : ∀ c d, table.Edge c d → d < c := by
    intro c d edge
    by_cases here : c < table.classes.length
    · rcases edge with parent | ⟨m, listed, rfl⟩
      · exact parents c here d parent
      · exact mixins c here m listed
    · unfold ClassTable.Edge ClassTable.info at edge
      rw [List.getElem?_eq_none (Nat.le_of_not_lt here)] at edge
      simp at edge
  have reaches : ∀ c d, Relation.TransGen table.Edge c d → d < c := by
    intro c d path
    induction path with
    | single edge => exact smaller _ _ edge
    | tail _ edge ih => exact Nat.lt_trans (smaller _ _ edge) ih
  intro c cycle
  exact Nat.lt_irrefl c (reaches c c cycle)

/-- `module A`, `module B`, `module M; include B; include A`, `class P; include A`,
`class C < P; include M` and `class Q < P; prepend A; include B`, above `Object`, in this order. -/
def sharedModuleTable : ClassTable where
  classes := [⟨none, []⟩, ⟨none, []⟩, ⟨none, []⟩, ⟨none, [(2, false), (1, false)]⟩,
    ⟨some 0, [(1, false)]⟩, ⟨some 4, [(3, false)]⟩, ⟨some 4, [(1, true), (2, false)]⟩]
  parents := by decide
  mixins := by decide

theorem sharedModuleTable_acyclic : sharedModuleTable.Acyclic :=
  acyclic_of_descending (by decide) (by decide)

/-- The include of `M` puts `B` behind the `A` that `C` has from `P`, inside the chain of `P`. -/
theorem include_splits_superclass : sharedModuleTable.Acyclic ∧
    (sharedModuleTable.info 5).parent = some 4 ∧
    computeAncestors sharedModuleTable 4 = [4, 1, 0] ∧
    computeAncestors sharedModuleTable 5 = [5, 3, 4, 1, 2, 0] ∧
    ¬ computeAncestors sharedModuleTable 4 <:+ computeAncestors sharedModuleTable 5 :=
  ⟨sharedModuleTable_acyclic, rfl, by decide, by decide, by decide⟩

/-- The prepend of `A` and the include of `B` leave what `Q` has from `P` alone. -/
theorem superclass_suffix_iff_prepend : sharedModuleTable.Acyclic ∧
    (sharedModuleTable.info 6).parent = some 4 ∧
    AtEach (6 :: computeAncestors sharedModuleTable 4, 0)
      ((sharedModuleTable.info 6).subs (computeAncestors sharedModuleTable))
      fun state mixin => mixin.2 = false →
        TailClear (computeAncestors sharedModuleTable 4) state.1 mixin.1 :=
  ⟨sharedModuleTable_acyclic, rfl,
    (superclass_suffix_iff sharedModuleTable sharedModuleTable_acyclic 6 4 rfl).mp (by decide)⟩

end Zeo.Analyze
