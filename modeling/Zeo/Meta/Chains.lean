import Zeo.Meta.Splice

/-!
# Every chain at run time

The chains of compiled classes are frozen rows; a mixin writes changed copies as overlay records,
per box where the program runs in one. One mixin edits the chain of its target and every chain that
passes through the target, each on its own. The run over the records is the run over the chains
that the running box reads, and the results are about that.
-/

namespace Zeo.Meta

open Zeo.Lib Zeo.Analyze List

abbrev BoxId := Nat

def main : BoxId := 0

/-- Where a chain is recorded: the class's shared record, or the record of one box. -/
inductive RecordKey where
  | shared (id : ClassId)
  | shadow (box : BoxId) (id : ClassId)
deriving DecidableEq

structure ChainStore where
  registered : List ClassId
  frozen : ClassId → List ClassId
  keys : List RecordKey
  /-- `OverlayEntry::ancestors`; empty for a record without a chain. -/
  ancestors : RecordKey → List ClassId
  owned : ClassId → Bool
  rows : ∀ id, frozen id ≠ [] → id ∈ registered
  listed : ∀ key, ancestors key ≠ [] → key ∈ keys
  unshadowed : ∀ box id, owned id = true → ancestors (.shadow box id) = []

namespace ChainStore

variable (store : ChainStore)

def recorded (key : RecordKey) : Option (List ClassId) :=
  if store.ancestors key = [] then none else some (store.ancestors key)

variable (box : BoxId) (id : ClassId)

/-- `overlay_ancestors`, as a box reads it. -/
def overlayAncestors : Option (List ClassId) :=
  match if box = main then none else store.recorded (.shadow box id) with
  | some chain => some chain
  | none => store.recorded (.shared id)

/-- `ancestors_of_value`, as a box reads it. -/
def chain : List ClassId :=
  (store.overlayAncestors box id).getD (store.frozen id)

/-- `box_record_for_write`. -/
def writeKey : RecordKey :=
  if box = main ∨ store.owned id = true then .shared id else .shadow box id

def write (chain : List ClassId) : ChainStore :=
  { store with
    keys := store.writeKey box id :: store.keys
    ancestors := fun key => if key = store.writeKey box id then chain else store.ancestors key
    listed := by
      intro key recorded
      by_cases same : key = store.writeKey box id
      · rw [same]
        exact mem_cons_self
      · rw [if_neg same] at recorded
        exact mem_cons_of_mem _ (store.listed key recorded)
    unshadowed := by
      intro other owner ownedBy
      have elsewhere : RecordKey.shadow other owner ≠ store.writeKey box id := by
        unfold writeKey
        split
        · exact nofun
        · intro same
          cases same
          exact ‹¬ _› (Or.inr ownedBy)
      rw [if_neg elsewhere]
      exact store.unshadowed other owner ownedBy }

def owner : RecordKey → Option ClassId
  | .shared id => some id
  | .shadow other id => if other = box then some id else none

def addCandidate (cid : ClassId) (found : List ClassId) (key : RecordKey) : List ClassId :=
  match owner box key with
  | none => found
  | some id =>
    if id ≠ cid ∧ cid ∈ store.ancestors key ∧ id ∉ found then found ++ [id] else found

/-- The classes whose chains may pass through a class: itself, those with a record that does, and
the registered ones without a record of their own. -/
def candidates (cid : ClassId) : List ClassId :=
  store.keys.foldl (store.addCandidate box cid) [cid] ++
    store.registered.filter fun id =>
      cid ∈ store.frozen id && (store.overlayAncestors box id).isNone && id != cid

def spliceModuleInto (cid mid : ClassId) (placement : Placement) : ChainStore :=
  let fresh := store.chain box mid
  let updates := (store.candidates box cid).filterMap fun id =>
    (spliceIntoChain (store.chain box cid) (store.chain box id) cid fresh placement).map (id, ·)
  updates.foldl (fun store update => store.write box update.1 update.2) store

theorem chain_write (id other : ClassId) {chain : List ClassId} (nonempty : chain ≠ []) :
    (store.write box id chain).chain box other =
      if other = id then chain else store.chain box other := by
  unfold ChainStore.chain overlayAncestors recorded write
  by_cases same : other = id
  · subst same
    unfold writeKey
    by_cases inMain : box = main
    · simp [inMain, nonempty]
    · by_cases ownedBy : store.owned other = true
      · simp [ownedBy, nonempty, store.unshadowed box other ownedBy]
      · simp [inMain, ownedBy, nonempty]
  · have shadow : RecordKey.shadow box other ≠ store.writeKey box id := by
      unfold writeKey
      split
      · exact nofun
      · exact fun equal => same (RecordKey.shadow.inj equal).2
    have shared : RecordKey.shared other ≠ store.writeKey box id := by
      unfold writeKey
      split
      · exact fun equal => same (RecordKey.shared.inj equal)
      · exact nofun
    simp only [if_neg same, if_neg shadow, if_neg shared]

theorem chain_foldl_write {should : ClassId → List ClassId}
    {updates : List (ClassId × List ClassId)} (store : ChainStore)
    (right : ∀ update ∈ updates, update.2 = should update.1 ∧ update.2 ≠ []) :
    (updates.foldl (fun store update => store.write box update.1 update.2) store).chain box id =
      if ∃ update ∈ updates, update.1 = id then should id else store.chain box id := by
  induction updates generalizing store with
  | nil => simp
  | cons update updates ih =>
    obtain ⟨value, nonempty⟩ := right update mem_cons_self
    rw [foldl_cons, ih _ fun later mem => right later (mem_cons_of_mem _ mem),
      chain_write store box update.1 id nonempty]
    by_cases later : ∃ other ∈ updates, other.1 = id
    · rw [if_pos later, if_pos]
      obtain ⟨other, mem, same⟩ := later
      exact ⟨other, mem_cons_of_mem _ mem, same⟩
    · rw [if_neg later]
      by_cases same : id = update.1
      · rw [if_pos same, value, same, if_pos ⟨update, mem_cons_self, rfl⟩]
      · rw [if_neg same, if_neg]
        rintro ⟨other, mem, equal⟩
        cases mem_cons.mp mem with
        | inl first => exact same (first ▸ equal.symm)
        | inr rest => exact later ⟨other, rest, equal⟩

variable {store : ChainStore} {cid id : ClassId} {box : BoxId}

theorem mem_foldl_addCandidate
    {keys : List RecordKey} {found : List ClassId} (qualifies : id ∈ found ∨
      ∃ key ∈ keys, owner box key = some id ∧ id ≠ cid ∧ cid ∈ store.ancestors key) :
    id ∈ keys.foldl (store.addCandidate box cid) found := by
  induction keys generalizing found with
  | nil => exact qualifies.resolve_right (by simp)
  | cons key keys ih =>
    apply ih
    have grows : ∀ x ∈ found, x ∈ store.addCandidate box cid found key := by
      intro x mem
      unfold addCandidate
      split
      · exact mem
      · split
        · exact mem_append_left _ mem
        · exact mem
    rcases qualifies with already | ⟨other, mem, stands, different, passes⟩
    · exact .inl (grows id already)
    · cases mem_cons.mp mem with
      | inr later => exact .inr ⟨other, later, stands, different, passes⟩
      | inl first =>
        left
        rw [first] at stands passes
        by_cases already : id ∈ found
        · exact grows id already
        · unfold addCandidate
          rw [stands]
          dsimp only
          rw [if_pos ⟨different, passes, already⟩]
          exact mem_append_right _ mem_cons_self

theorem mem_candidates
    (passes : id = cid ∨ cid ∈ store.chain box id) : id ∈ store.candidates box cid := by
  unfold candidates
  rw [mem_append]
  by_cases same : id = cid
  · exact .inl (mem_foldl_addCandidate (.inl (by rw [same]; simp)))
  · have through : cid ∈ store.chain box id := passes.resolve_left same
    have byRecord : ∀ key, owner box key = some id → cid ∈ store.ancestors key →
        id ∈ store.keys.foldl (store.addCandidate box cid) [cid] := by
      intro key stands mem
      have recorded : store.ancestors key ≠ [] := ne_nil_of_mem mem
      exact mem_foldl_addCandidate
        (.inr ⟨key, store.listed key recorded, stands, same, mem⟩)
    unfold ChainStore.chain at through
    cases overlay : store.overlayAncestors box id with
    | none =>
      rw [overlay] at through
      right
      rw [mem_filter]
      have registered := store.rows id (ne_nil_of_mem through)
      exact ⟨registered, by simp [overlay, same, show cid ∈ store.frozen id from through]⟩
    | some recordedChain =>
      rw [overlay] at through
      left
      unfold overlayAncestors at overlay
      split at overlay
      · next chain found =>
        split at found
        · exact nomatch found
        · unfold recorded at found
          split at found
          · exact nomatch found
          · refine byRecord (.shadow box id) (if_pos rfl) ?_
            rw [Option.some.inj found, Option.some.inj overlay]
            exact through
      · unfold recorded at overlay
        split at overlay
        · exact nomatch overlay
        · refine byRecord (.shared id) rfl ?_
          rw [Option.some.inj overlay]
          exact through

end ChainStore

structure Mixing where
  target : ClassId
  module : ClassId
  placement : Placement

def spliceChains (chains : ClassId → List ClassId) (step : Mixing) (id : ClassId) : List ClassId :=
  spliced (chains step.target) (chains id) step.target (chains step.module) step.placement

variable {current : List ClassId} {target : ClassId}

theorem spliceIntoChain_ne_nil {own fresh new : List ClassId}
    {placement : Placement}
    (result : spliceIntoChain own current target fresh placement = some new) : new ≠ [] := by
  unfold spliceIntoChain at result
  cases found : current.idxOf? target with
  | none =>
    rw [found] at result
    exact nomatch result
  | some place =>
    rw [found] at result
    dsimp only at result
    split at result
    · rw [← Option.some.inj result]
      have there : current ≠ [] := by
        obtain ⟨bound, -⟩ := List.idxOf?_eq_some_iff.mp found
        exact ne_nil_of_length_pos (Nat.lt_of_le_of_lt (Nat.zero_le _) bound)
      have keeps : ∀ (fresh : List ClassId) s, s.chain ≠ [] →
          (spliceLoop placement s fresh).chain ≠ [] := by
        intro fresh
        induction fresh with
        | nil => exact fun _ nonempty => nonempty
        | cons m fresh ih =>
          intro s nonempty
          apply ih (spliceStep placement s m)
          unfold spliceStep
          cases spliceSeen placement s m with
          | some p => exact nonempty
          | none =>
            intro empty
            have length := congrArg List.length empty
            rw [length_insertIdx, length_nil] at length
            have positive := length_pos_of_ne_nil nonempty
            split at length <;> omega
      exact keeps fresh _ there
    · exact nomatch result

/-- The records after `splice_module_into` give the running box the chains after the mixin. -/
theorem chain_spliceModuleInto (store : ChainStore) (box : BoxId) (step : Mixing) :
    (store.spliceModuleInto box step.target step.module step.placement).chain box =
      spliceChains (store.chain box) step := by
  funext id
  unfold ChainStore.spliceModuleInto
  rw [ChainStore.chain_foldl_write box id]
  · by_cases updated : ∃ update ∈ (store.candidates box step.target).filterMap (fun id =>
        (spliceIntoChain (store.chain box step.target) (store.chain box id) step.target
          (store.chain box step.module) step.placement).map (id, ·)), update.1 = id
    · rw [if_pos updated]
    · rw [if_neg updated]
      unfold spliceChains
      by_cases through : step.target ∈ store.chain box id
      · have candidate := ChainStore.mem_candidates (Or.inr through)
        unfold spliced
        cases result : spliceIntoChain (store.chain box step.target) (store.chain box id)
            step.target (store.chain box step.module) step.placement with
        | none => rfl
        | some new =>
          refine absurd ⟨(id, new), ?_, rfl⟩ updated
          rw [mem_filterMap]
          exact ⟨id, candidate, by rw [result]; rfl⟩
      · rw [spliced_absent through]
  · intro update mem
    obtain ⟨other, -, made⟩ := mem_filterMap.mp mem
    obtain ⟨new, result, rfl⟩ := Option.map_eq_some_iff.mp made
    refine ⟨?_, spliceIntoChain_ne_nil result⟩
    unfold spliceChains spliced
    rw [result]
    rfl

def runMixings (box : BoxId) (store : ChainStore) (steps : List Mixing) : ChainStore :=
  steps.foldl (fun store step =>
    store.spliceModuleInto box step.target step.module step.placement) store

theorem chain_runMixings (box : BoxId) (steps : List Mixing) (store : ChainStore) :
    (runMixings box store steps).chain box = steps.foldl spliceChains (store.chain box) := by
  induction steps generalizing store with
  | nil => rfl
  | cons step steps ih =>
    rw [foldl_cons, ← chain_spliceModuleInto store box step]
    exact ih _

theorem runMixings_append (box : BoxId) (store : ChainStore) (first second : List Mixing) :
    runMixings box store (first ++ second) = runMixings box (runMixings box store first) second :=
  foldl_append

/-- An argument of `include` or `prepend`. -/
inductive MixArg where
  | klass (id : ClassId)
  /-- Any other value, by what a type error calls it. -/
  | other (typeName : String)

inductive MixError where
  | typeError (message : String)
  | frozenError (message : String)
  | argumentError (message : String)
  | raised (message : String)

/-- What the program's own code does when a request calls it. -/
structure UserCode where
  mixins : List Mixing
  raised : Option String

/-- What a request reads of the classes, and the program's own code that it calls. -/
structure Program where
  isModule : ClassId → Bool
  frozen : ClassId → Bool
  className : ClassId → String
  /-- `overrides_mixin_primitive`. -/
  overrides : Placement → ClassId → Bool
  /-- A module's own `prepend_features` or `append_features`, sent with the receiver. -/
  features : Placement → ClassId → ClassId → ChainStore → UserCode
  /-- A module's `prepended` or `included`, sent with the receiver. -/
  hook : Placement → ClassId → ClassId → ChainStore → UserCode

variable (program : Program)

def checkModuleArg : MixArg → Option MixError
  | .klass id =>
    if program.isModule id then none
    else some (.typeError "wrong argument type Class (expected Module)")
  | .other typeName => some (.typeError s!"wrong argument type {typeName} (expected Module)")

def frozenClassError (id : ClassId) : MixError :=
  let kind := if program.isModule id then "Module" else "Class"
  let name := program.className id
  .frozenError s!"can't modify frozen {kind}: {name}"

def checkMixinCycle (store : ChainStore) (box : BoxId) (cid : ClassId) : MixArg → Option MixError
  | .klass id =>
    if id = cid ∨ cid ∈ store.chain box id then
      some (.argumentError "cyclic include detected")
    else none
  | .other _ => none

def runUser (box : BoxId) (store : ChainStore) (code : UserCode) : ChainStore × Option MixError :=
  (runMixings box store code.mixins, code.raised.map .raised)

/-- One module of the loop of `mix_in`. -/
def mixOne (box : BoxId) (cid : ClassId) (placement : Placement)
    (store : ChainStore) (mid : ClassId) : ChainStore × Option MixError :=
  let mixed :=
    if program.overrides placement mid then
      runUser box store (program.features placement mid cid store)
    else (store.spliceModuleInto box cid mid placement, none)
  match mixed with
  | (store, some error) => (store, some error)
  | (store, none) => runUser box store (program.hook placement mid cid store)

/-- The loop of `mix_in`. -/
def mixEach (program : Program) (box : BoxId) (cid : ClassId) (placement : Placement) :
    ChainStore → List MixArg → ChainStore × Option MixError
  | store, [] => (store, none)
  | store, .other typeName :: _ =>
    (store, some (.typeError s!"wrong argument type {typeName} (expected Module)"))
  | store, .klass mid :: args =>
    match mixOne program box cid placement store mid with
    | (store, some error) => (store, some error)
    | (store, none) => mixEach program box cid placement store args

/-- `mix_in`, for a receiver that is no singleton class. -/
def mixIn (box : BoxId) (store : ChainStore) (cid : ClassId)
    (args : List MixArg) (placement : Placement) : ChainStore × Option MixError :=
  match args.findSome? (checkModuleArg program) with
  | some error => (store, some error)
  | none =>
    if program.frozen cid then (store, some (frozenClassError program cid))
    else match args.findSome? (checkMixinCycle store box cid) with
      | some error => (store, some error)
      | none => mixEach program box cid placement store args.reverse

section

variable {program : Program} {box : BoxId} {cid : ClassId} {placement : Placement}
  {store : ChainStore} (holds : ChainStore → Prop)
  (splice : ∀ s mid, cid ∉ store.chain box mid → holds s →
    holds (s.spliceModuleInto box cid mid placement))
  (user : ∀ s mid, holds s → holds (runUser box s (program.features placement mid cid s)).1 ∧
    holds (runUser box s (program.hook placement mid cid s)).1)
include splice user

theorem mixOne_keeps {s : ChainStore} {mid : ClassId} (permitted : cid ∉ store.chain box mid)
    (begins : holds s) : holds (mixOne program box cid placement s mid).1 := by
  have mixed : holds (if program.overrides placement mid then
      runUser box s (program.features placement mid cid s)
      else (s.spliceModuleInto box cid mid placement, none)).1 := by
    split
    · exact (user s mid begins).1
    · exact splice s mid permitted begins
  unfold mixOne
  dsimp only
  split
  · next equal =>
    rw [equal] at mixed
    exact mixed
  · next equal =>
    rw [equal] at mixed
    exact (user _ mid mixed).2

theorem mixEach_keeps (args : List MixArg)
    (permitted : ∀ mid, .klass mid ∈ args → cid ∉ store.chain box mid) {s : ChainStore}
    (begins : holds s) : holds (mixEach program box cid placement s args).1 := by
  induction args generalizing s with
  | nil => exact begins
  | cons arg args ih =>
    cases arg with
    | other typeName => exact begins
    | klass mid =>
      have first := mixOne_keeps holds splice user (permitted mid mem_cons_self) begins
      unfold mixEach
      split
      · next equal =>
        rw [equal] at first
        exact first
      · next equal =>
        rw [equal] at first
        exact ih (fun later mem => permitted later (mem_cons_of_mem _ mem)) first

/-- What permitted splices and the program's own code keep, a request keeps. -/
theorem mixIn_keeps (args : List MixArg) (begins : holds store) :
    holds (mixIn program box store cid args placement).1 := by
  unfold mixIn
  split
  · exact begins
  · split
    · exact begins
    · split
      · exact begins
      · next cleared =>
        refine mixEach_keeps holds splice user _ (fun mid mem there => ?_) begins
        have none := findSome?_eq_none_iff.mp cleared _ (mem_reverse.mp mem)
        rw [checkMixinCycle, if_pos (.inr there)] at none
        cases none

end

variable (program : Program)

/-- Whatever a request does to the records, it does by mixins. -/
theorem mixIn_run (box : BoxId) (store : ChainStore) (cid : ClassId)
    (args : List MixArg) (placement : Placement) :
    ∃ steps, (mixIn program box store cid args placement).1 = runMixings box store steps := by
  have more : ∀ s, (∃ steps, s = runMixings box store steps) → ∀ later,
      ∃ steps, runMixings box s later = runMixings box store steps := by
    rintro _ ⟨steps, rfl⟩ later
    exact ⟨steps ++ later, (runMixings_append ..).symm⟩
  refine mixIn_keeps (fun s => ∃ steps, s = runMixings box store steps) ?_ ?_ args ⟨[], rfl⟩
  · exact fun s mid _ made => more s made [⟨cid, mid, placement⟩]
  · exact fun s mid made => ⟨more s made _, more s made _⟩

variable {place : Nat} (own : List ClassId)

theorem spliceStart_fits (target : ClassId) (inside : place < current.length) :
    (spliceStart own current target .before place).Fits := by
  have area : ∀ p ∈ areaOf current place (ownPrepends own target), p < place := by
    intro p mem
    exact mem_range.mp (mem_filter.mp mem).1
  refine ⟨?_, fun p mem => Nat.lt_trans (area p mem) inside⟩
  change (areaOf current place (ownPrepends own target)).head?.getD place ≤ current.length
  cases first : (areaOf current place (ownPrepends own target)).head? with
  | none => exact Nat.le_of_lt inside
  | some p =>
    have bound := area p (mem_of_head? first)
    change p ≤ current.length
    omega

/-- The loop of a prepend adds the module's chain and nothing else. -/
theorem mem_spliceLoop_before (fresh : List ClassId) {s : Splicing} (fits : s.Fits) (x : ClassId) :
    x ∈ (spliceLoop .before s fresh).chain ↔ x ∈ s.chain ∨ x ∈ fresh := by
  induction fresh generalizing s with
  | nil => simp [spliceLoop]
  | cons m fresh ih =>
    have step : x ∈ (spliceStep .before s m).chain ↔ x = m ∨ x ∈ s.chain := by
      unfold spliceStep spliceSeen
      cases seen : s.area.find? fun p => s.chain[p]? == some m with
      | none => exact mem_insertIdx fits.ins
      | some p =>
        have found := List.find?_some seen
        rw [beq_iff_eq] at found
        have there : m ∈ s.chain := mem_of_getElem? found
        exact ⟨.inr, fun either => either.elim (fun same => same ▸ there) id⟩
    change x ∈ (spliceLoop .before (spliceStep .before s m) fresh).chain ↔ _
    rw [ih (fits.step m)]
    grind

theorem mem_spliced (own current fresh : List ClassId) (target : ClassId) (placement : Placement)
    (x : ClassId) :
    x ∈ spliced own current target fresh placement ↔
      x ∈ current ∨ (target ∈ current ∧ x ∈ fresh) := by
  by_cases there : target ∈ current
  · have inside := idxOf_lt_length_of_mem there
    rw [spliced_eq_loop there]
    cases placement with
    | after =>
      rw [spliceLoop_after]
      have fits : Cursor.Fits ⟨current, current.idxOf target + 1⟩ := inside
      exact (Cursor.mem_merge _ fresh x fits).trans (by simp [there])
    | before =>
      rw [mem_spliceLoop_before _ (spliceStart_fits own target inside)]
      exact or_congr_right (by simp [there])
  · rw [spliced_absent there]
    simp [there]

/-- A mixin meets the chain of a superclass, and what a class has ahead of it, in one of the ways
that keep the two together. Inside the superclass's chain: the class has neither the target nor
the target's prepended modules ahead of it, nor of an included module's chain anything that the
superclass lacks or that a new module follows. Ahead of it: an include puts nothing new right
behind what only the superclass has. -/
def Clear (chains : ClassId → List ClassId) (own tail : List ClassId) (step : Mixing) : Prop :=
  if step.target ∈ tail then
    step.target ∉ own ∧
      match step.placement with
      | .after => (∀ x ∈ chains step.module, x ∈ own → x ∈ tail) ∧
          Undisturbed (· ∈ own) (own ++ tail) (chains step.module)
      | .before => ∀ x ∈ ownPrepends (chains step.target) step.target, x ∉ own
  else
    step.placement = .after → Undisturbed (OnlyIn tail own) (own ++ tail) (chains step.module)

/-- The places of a target's prepended modules, behind a front that has none of them. -/
theorem areaOf_behind {front : List ClassId} (current : List ClassId) {prepends : List ClassId}
    (place : Nat) (apart : ∀ x ∈ prepends, x ∉ front) :
    areaOf (front ++ current) (front.length + place) prepends =
      (areaOf current place prepends).map (front.length + ·) := by
  unfold areaOf
  rw [range_add, filter_append, filter_map]
  have missing : (List.range front.length).filter
      (fun p => ((front ++ current)[p]?).any prepends.contains) = [] := by
    rw [filter_eq_nil_iff]
    intro p mem found
    have inside := mem_range.mp mem
    rw [List.getElem?_append_left inside, List.getElem?_eq_getElem inside] at found
    exact apart _ (contains_iff_mem.mp found) (getElem_mem inside)
  have shifted : (fun p => ((front ++ current)[p]?).any prepends.contains) ∘ (front.length + ·) =
      fun p => (current[p]?).any prepends.contains := by
    funext p
    rw [Function.comp_apply, List.getElem?_append_right (Nat.le_add_right _ _),
      Nat.add_sub_cancel_left]
  rw [missing, shifted]
  rfl

theorem areaOf_ahead (tail prepends : List ClassId) (inside : place ≤ current.length) :
    areaOf (current ++ tail) place prepends = areaOf current place prepends := by
  apply filter_congr
  intro p mem
  rw [List.getElem?_append_left (Nat.lt_of_lt_of_le (mem_range.mp mem) inside)]

theorem spliced_before_behind {own front : List ClassId} (fresh : List ClassId)
    (there : target ∈ current) (absent : target ∉ front)
    (apart : ∀ x ∈ ownPrepends own target, x ∉ front) :
    spliced own (front ++ current) target fresh .before =
      front ++ spliced own current target fresh .before := by
  have start : spliceStart own (front ++ current) target .before
      (front.length + current.idxOf target) =
      (spliceStart own current target .before (current.idxOf target)).behind front := by
    unfold spliceStart Splicing.behind
    dsimp only
    rw [areaOf_behind current _ apart, List.head?_map]
    cases (areaOf current (current.idxOf target) (ownPrepends own target)).head? <;> rfl
  have fits := spliceStart_fits own target (idxOf_lt_length_of_mem there)
  rw [spliced_eq_loop (mem_append_right front there), spliced_eq_loop there,
    idxOf_append_of_notMem absent, start, spliceLoop_behind front fresh fits]
  rfl

theorem spliced_before_ahead (tail fresh : List ClassId) (there : target ∈ current) :
    spliced own (current ++ tail) target fresh .before =
      spliced own current target fresh .before ++ tail := by
  have inside := idxOf_lt_length_of_mem there
  have start : spliceStart own (current ++ tail) target .before (current.idxOf target) =
      (spliceStart own current target .before (current.idxOf target)).ahead tail := by
    unfold spliceStart Splicing.ahead
    rw [areaOf_ahead tail _ (Nat.le_of_lt inside)]
  have fits := spliceStart_fits own target inside
  rw [spliced_eq_loop (mem_append_left tail there), spliced_eq_loop there,
    idxOf_append_of_mem there, start, spliceLoop_ahead tail fresh fits]
  rfl

variable {chains : ClassId → List ClassId}

/-- A mixin that is clear keeps a superclass's chain at the end of the class's. -/
theorem Clear.suffix {chains : ClassId → List ClassId} {own tail : List ClassId} {step : Mixing}
    (clear : Clear chains own tail step) :
    spliced (chains step.target) tail step.target (chains step.module) step.placement <:+
      spliced (chains step.target) (own ++ tail) step.target (chains step.module)
        step.placement := by
  obtain ⟨target, module, placement⟩ := step
  unfold Clear at clear
  by_cases inTail : target ∈ tail
  · rw [if_pos inTail] at clear
    obtain ⟨absent, apart⟩ := clear
    cases placement with
    | before =>
      rw [spliced_before_behind _ inTail absent apart]
      exact suffix_append _ _
    | after =>
      have inside := idxOf_lt_length_of_mem inTail
      have merged := (Cursor.merge_behind inside
        apart.1 apart.2).1
      rw [spliced_eq_loop (mem_append_right own inTail), spliced_eq_loop inTail,
        spliceLoop_after, spliceLoop_after, idxOf_append_of_notMem absent]
      change (Cursor.merge ⟨tail, tail.idxOf target + 1⟩ _).items <:+
        (Cursor.merge ⟨own ++ tail, own.length + tail.idxOf target + 1⟩ _).items
      rw [Nat.add_assoc, merged]
      exact suffix_append _ _
  · rw [if_neg inTail] at clear
    rw [spliced_absent inTail]
    by_cases inOwn : target ∈ own
    · cases placement with
      | before =>
        rw [spliced_before_ahead _ tail _ inOwn]
        exact suffix_append _ _
      | after =>
        have inside := idxOf_lt_length_of_mem inOwn
        rw [spliced_eq_loop (mem_append_left tail inOwn), spliceLoop_after,
          idxOf_append_of_mem inOwn]
        exact (Cursor.suffix_merge_iff tail (chains module) inside).mpr
          (clear rfl)
    · rw [spliced_absent fun there => (mem_append.mp there).elim inOwn inTail]
      exact suffix_append _ _

def Consistent (superclass : ClassId → Option ClassId) (chains : ClassId → List ClassId) : Prop :=
  ∀ c p, superclass c = some p → chains p <:+ chains c

def ClearStep (superclass : ClassId → Option ClassId) (chains : ClassId → List ClassId)
    (step : Mixing) : Prop :=
  ∀ c p own, superclass c = some p → chains c = own ++ chains p → Clear chains own (chains p) step

/-- Every mixin of a run is clear when it takes place. -/
def ClearRun (superclass : ClassId → Option ClassId) (chains : ClassId → List ClassId) :
    List Mixing → Prop
  | [] => True
  | step :: steps =>
    ClearStep superclass chains step ∧ ClearRun superclass (spliceChains chains step) steps

variable {superclass : ClassId → Option ClassId}

theorem Consistent.step (consistent : Consistent superclass chains) {step : Mixing}
    (clear : ClearStep superclass chains step) :
    Consistent superclass (spliceChains chains step) := by
  intro c p parent
  obtain ⟨own, split⟩ := consistent c p parent
  have kept := (clear c p own parent split.symm).suffix
  unfold spliceChains
  rw [← split]
  exact kept

theorem Consistent.run (steps : List Mixing)
    (consistent : Consistent superclass chains) (clear : ClearRun superclass chains steps) :
    Consistent superclass (steps.foldl spliceChains chains) := by
  induction steps generalizing chains with
  | nil => exact consistent
  | cons step steps ih => exact ih (consistent.step clear.1) clear.2

def Carries (chains : ClassId → List ClassId) (target x : ClassId) : Prop :=
  ∀ c, target ∈ chains c → x ∈ chains c

variable {x : ClassId}

theorem carries_spliceChains {step : Mixing} (mem : x ∈ chains step.module) :
    Carries (spliceChains chains step) step.target x := by
  intro c there
  unfold spliceChains at there ⊢
  rw [mem_spliced] at there ⊢
  exact .inr ⟨there.elim id And.left, mem⟩

theorem Carries.step (carries : Carries chains target x) (step : Mixing) :
    Carries (spliceChains chains step) target x := by
  intro c there
  unfold spliceChains at there ⊢
  rw [mem_spliced] at there ⊢
  rcases there with old | ⟨through, fresh⟩
  · exact .inl (carries c old)
  · exact .inr ⟨through, carries step.module fresh⟩

theorem Carries.run (steps : List Mixing) (carries : Carries chains target x) :
    Carries (steps.foldl spliceChains chains) target x := by
  induction steps generalizing chains with
  | nil => exact carries
  | cons step steps ih => exact ih (carries.step step)

/-- Over every run of mixins, every chain with a module keeps what was spliced into that module,
and where every mixin is clear when it takes place, every class's chain ends in its
superclass's. What `include` and `prepend` do to the records is such a run. -/
theorem mixins_keep_chains (superclass : ClassId → Option ClassId) (box : BoxId)
    (store : ChainStore) (steps : List Mixing)
    (start : Consistent superclass (store.chain box)) :
    (ClearRun superclass (store.chain box) steps →
      Consistent superclass ((runMixings box store steps).chain box)) ∧
    (∀ done step rest, steps = done ++ step :: rest →
      ∀ x ∈ (runMixings box store done).chain box step.module,
        Carries ((runMixings box store steps).chain box) step.target x) ∧
    ∀ program cid args placement, ∃ made,
      (mixIn program box store cid args placement).1 = runMixings box store made := by
  refine ⟨?_, ?_, fun program => mixIn_run program box store⟩
  · intro clear
    rw [chain_runMixings]
    exact start.run steps clear
  · intro done step rest split x member
    rw [split, runMixings_append, chain_runMixings box (step :: rest)]
    exact (carries_spliceChains member).run rest

/-- `Object` (0), a module `A` (1), a class `P` (2), and a class `C` (3) under `P` that includes
`A`. -/
def sharedModuleStore : ChainStore where
  registered := [0, 1, 2, 3]
  frozen id := ([[0], [1], [2, 0], [3, 1, 2, 0]] : List (List ClassId)).getD id []
  keys := []
  ancestors _ := []
  owned _ := false
  rows id row := by
    match id with
    | 0 | 1 | 2 | 3 => decide
    | _ + 4 => exact absurd rfl row
  listed _ recorded := absurd rfl recorded
  unshadowed _ _ _ := rfl

/-- The superclasses of `P` and `C`. -/
def sharedModuleSuperclass (id : ClassId) : Option ClassId :=
  ([none, none, some 0, some 2] : List (Option ClassId)).getD id none

/-- The classes of the program, none frozen and without code of their own. -/
def sharedModuleProgram : Program where
  isModule id := id == 1
  frozen _ := false
  className _ := ""
  overrides _ _ := false
  features _ _ _ _ := ⟨[], none⟩
  hook _ _ _ _ := ⟨[], none⟩

theorem sharedModuleSuperclass_cases {c p : ClassId} (parent : sharedModuleSuperclass c = some p) :
    (c = 2 ∧ p = 0) ∨ (c = 3 ∧ p = 2) := by
  match c with
  | 0 | 1 => exact nomatch parent
  | 2 => exact .inl ⟨rfl, (Option.some.inj parent).symm⟩
  | 3 => exact .inr ⟨rfl, (Option.some.inj parent).symm⟩
  | _ + 4 => exact nomatch parent

theorem sharedModuleStore_consistent :
    Consistent sharedModuleSuperclass (sharedModuleStore.chain main) := by
  intro c p parent
  rcases sharedModuleSuperclass_cases parent with ⟨rfl, rfl⟩ | ⟨rfl, rfl⟩
  · exact ⟨[2], rfl⟩
  · exact ⟨[3, 1], rfl⟩

/-- `P.include(A)` leaves `C` with `[C, A, P, Object]`, which does not end in `P`'s
`[P, A, Object]`. -/
theorem mixin_parts_superclass :
    Consistent sharedModuleSuperclass (sharedModuleStore.chain main) ∧
      (mixIn sharedModuleProgram main sharedModuleStore 2 [.klass 1] .after).2.isNone ∧
      ((mixIn sharedModuleProgram main sharedModuleStore 2 [.klass 1] .after).1.chain main 2 =
        [2, 1, 0]) ∧
      ((mixIn sharedModuleProgram main sharedModuleStore 2 [.klass 1] .after).1.chain main 3 =
        [3, 1, 2, 0]) ∧
      ¬ Consistent sharedModuleSuperclass
        ((mixIn sharedModuleProgram main sharedModuleStore 2 [.klass 1] .after).1.chain main) := by
  refine ⟨sharedModuleStore_consistent, rfl, by decide, by decide, fun consistent => ?_⟩
  have suffix := consistent 3 2 rfl
  revert suffix
  decide

/-- `P.prepend(A)` is clear: `C` has neither `P` nor a module prepended to `P` ahead of `P`. -/
theorem mixins_keep_chains_prepend :
    Consistent sharedModuleSuperclass
      ((runMixings main sharedModuleStore [⟨2, 1, .before⟩]).chain main) ∧
    Carries ((runMixings main sharedModuleStore [⟨2, 1, .before⟩]).chain main) 2 1 := by
  have both := mixins_keep_chains sharedModuleSuperclass main sharedModuleStore
    [⟨2, 1, .before⟩] sharedModuleStore_consistent
  refine ⟨both.1 ⟨?_, trivial⟩, both.2.1 [] ⟨2, 1, .before⟩ [] rfl 1 (by decide)⟩
  intro c p own parent split
  rcases sharedModuleSuperclass_cases parent with ⟨rfl, rfl⟩ | ⟨rfl, rfl⟩
  · exact nofun
  · have ahead : own = [3, 1] :=
      append_cancel_right (show own ++ [2, 0] = [3, 1] ++ [2, 0] from split.symm)
    subst ahead
    exact ⟨by decide, by decide⟩

/-- The chains make an order: a chain has the chain of everything in it, and no two classes are in
each other's. -/
structure Ordered (chains : ClassId → List ClassId) : Prop where
  carries : ∀ b, ∀ c ∈ chains b, Carries chains b c
  antisymm : ∀ a, ∀ b ∈ chains a, a ∈ chains b → a = b

/-- A mixin adds the pairs that go through the target to the module. They close no circle where the
module's chain does not have the target. -/
theorem Ordered.splice (ordered : Ordered chains) {step : Mixing}
    (permitted : step.target ∉ chains step.module) : Ordered (spliceChains chains step) := by
  obtain ⟨carries, antisymm⟩ := ordered
  have mem : ∀ id x, x ∈ spliceChains chains step id ↔
      x ∈ chains id ∨ (step.target ∈ chains id ∧ x ∈ chains step.module) :=
    fun id x => mem_spliced ..
  constructor
  · intro b c bc
    rcases (mem b c).mp bc with old | ⟨through, fresh⟩
    · exact (carries b c old).step step
    · intro a ab
      exact carries_spliceChains fresh a ((carries b _ through).step step a ab)
  · intro a b ab ba
    rcases (mem a b).mp ab with old | ⟨through, fresh⟩
    · rcases (mem b a).mp ba with old' | ⟨through, fresh⟩
      · exact antisymm a b old old'
      · exact absurd (carries a _ (carries b _ through a old) _ fresh) permitted
    · rcases (mem b a).mp ba with old | ⟨through', _⟩
      · exact absurd (carries b _ (carries a _ through b old) _ fresh) permitted
      · exact absurd (carries b _ through' _ fresh) permitted

/-- A module is mixed into a class that its own chain does not have. -/
def Mixes (box : BoxId) (cid : ClassId) (store after : ChainStore) : Prop :=
  ∃ mid placement, cid ∉ store.chain box mid ∧ after = store.spliceModuleInto box cid mid placement

abbrev MixesInto (box : BoxId) (cid : ClassId) : ChainStore → ChainStore → Prop :=
  Relation.ReflTransGen (Mixes box cid)

/-- The program's own code mixes into the receiver it is called with, and nowhere else. -/
def Program.MixesIntoReceiver (box : BoxId) : Prop :=
  ∀ placement mid cid store,
    MixesInto box cid store (runUser box store (program.features placement mid cid store)).1 ∧
    MixesInto box cid store (runUser box store (program.hook placement mid cid store)).1

/-- One call of `include` or `prepend`, whether or not it ends in an error. -/
def Requests (box : BoxId) (store after : ChainStore) : Prop :=
  ∃ cid args placement, after = (mixIn program box store cid args placement).1

/-- A mixin into a class keeps the order, and gets the class itself into no further chain. -/
theorem Mixes.keeps {box : BoxId} {cid : ClassId} {store after : ChainStore}
    (mixes : Mixes box cid store after) (ordered : Ordered (store.chain box)) :
    Ordered (after.chain box) ∧ ∀ id, cid ∉ store.chain box id → cid ∉ after.chain box id := by
  obtain ⟨mid, placement, permitted, rfl⟩ := mixes
  rw [chain_spliceModuleInto store box ⟨cid, mid, placement⟩]
  refine ⟨ordered.splice permitted, fun id absent there => ?_⟩
  exact absent (((mem_spliced ..).mp there).elim (fun old => old) And.left)

theorem Ordered.mixIn {program : Program} {box : BoxId} {store : ChainStore}
    (start : Ordered (store.chain box)) (receiver : program.MixesIntoReceiver box) (cid : ClassId)
    (args : List MixArg) (placement : Placement) :
    Ordered ((mixIn program box store cid args placement).1.chain box) := by
  -- the check made once holds for every module when its turn comes
  let holds (s : ChainStore) : Prop := Ordered (s.chain box) ∧
    ∀ id, cid ∉ store.chain box id → cid ∉ s.chain box id
  have step : ∀ s t, Mixes box cid s t → holds s → holds t := by
    intro s t mixes kept
    obtain ⟨ordered, absent⟩ := mixes.keeps kept.1
    exact ⟨ordered, fun id before => absent id (kept.2 id before)⟩
  have steps : ∀ s t, MixesInto box cid s t → holds s → holds t := by
    intro s t path kept
    induction path with
    | refl => exact kept
    | tail _ mixes ih => exact step _ _ mixes ih
  refine (mixIn_keeps holds ?_ ?_ args ⟨start, fun _ absent => absent⟩).1
  · exact fun s mid permitted kept => step s _ ⟨mid, placement, kept.2 mid permitted, rfl⟩ kept
  · exact fun s mid kept => ⟨steps _ _ (receiver ..).1 kept, steps _ _ (receiver ..).2 kept⟩

def compiledRow (table : ClassTable) (id : ClassId) : List ClassId :=
  if id < table.classes.length then computeAncestors table id else []

/-- The records of a program that starts: its compiled rows. -/
def ChainStore.compiled (table : ClassTable) (owned : ClassId → Bool) : ChainStore where
  registered := List.range table.classes.length
  frozen := compiledRow table
  keys := []
  ancestors _ := []
  owned := owned
  rows _ row := mem_range.mpr (by_contra fun outside => row (if_neg outside))
  listed _ recorded := absurd rfl recorded
  unshadowed _ _ _ := rfl

theorem compiled_ordered {table : ClassTable} (acyclic : table.Acyclic)
    (owned : ClassId → Bool) (box : BoxId) : Ordered ((ChainStore.compiled table owned).chain box) := by
  have chains : (ChainStore.compiled table owned).chain box = compiledRow table := by
    funext id
    simp [ChainStore.chain, ChainStore.overlayAncestors, ChainStore.recorded, ChainStore.compiled]
  have mem : ∀ id x, x ∈ compiledRow table id ↔
      id < table.classes.length ∧ Relation.ReflTransGen table.Edge id x := by
    intro id x
    unfold compiledRow
    split
    · simp [*, mem_computeAncestors acyclic]
    · simp [*]
  rw [chains]
  constructor
  · intro b c second a first
    rw [mem] at first second ⊢
    exact ⟨first.1, first.2.trans second.2⟩
  · intro a b first second
    rw [mem] at first second
    rcases Relation.reflTransGen_iff_eq_or_transGen.mp first.2 with same | path
    · exact same.symm
    · exact absurd (path.trans_left second.2) (acyclic a)

/-- The chains of a program make an order when it starts and after every run of requests, as long as
the program's own code mixes into nothing but the receiver. -/
theorem ancestors_ordered (table : ClassTable) (acyclic : table.Acyclic) (owned : ClassId → Bool)
    (program : Program) (box : BoxId) (receiver : program.MixesIntoReceiver box)
    (after : ChainStore) (requests : Relation.ReflTransGen (Requests program box)
      (.compiled table owned) after) : Ordered (after.chain box) := by
  induction requests with
  | refl => exact compiled_ordered acyclic owned box
  | tail _ request ih =>
    obtain ⟨cid, args, placement, rfl⟩ := request
    exact ih.mixIn receiver cid args placement

/-- `P.include(A)`, where `P` has `A` already. -/
theorem ancestors_ordered_include : Ordered ((mixIn sharedModuleProgram main
    (.compiled sharedModuleTable fun _ => false) 4 [.klass 1] .after).1.chain main) :=
  ancestors_ordered sharedModuleTable sharedModuleTable_acyclic _ sharedModuleProgram main
    (fun _ _ _ _ => ⟨.refl, .refl⟩) _ (.single ⟨4, [.klass 1], .after, rfl⟩)

end Zeo.Meta
