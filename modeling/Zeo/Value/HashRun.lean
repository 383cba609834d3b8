import Zeo.Value.HashInvariant

/-!
# Runs over the hashes of a program

A state holds the hashes a program has made and the world their keys are read in. A step is one Hash
operation, or anything else the program does, which may change the world as long as it does not
mutate a key that is stored. Every run whose copies are made of copyable hashes keeps the key
invariant, so that every key a hash lists is found again and a copy has every entry of its source.
-/

namespace Zeo.Value

open Zeo.Lib List AssocList

section Copies

variable {eql : UserEql} {im : ValueMap eql}

/-- A call returns, reports no raise, and finds the value of each of these rows. -/
def KeepsEntries (w : World) (rows : List (Key eql × (RubyValue × RubyValue)))
    (made : Outcome (RHashData im × Running)) : Prop :=
  ∃ data run, made = .done (data, run) ∧ run.parked = false ∧
    ∀ row ∈ rows, hashLookup w data row.2.1 = pure (some row.2.2)

variable [EquivBEq (Key eql)]

def SameEntry (row stored : Key eql × (RubyValue × RubyValue)) : Prop :=
  (stored.1 == row.1) = true ∧ stored.2.2 = row.2.2

variable {rows : List (Key eql × (RubyValue × RubyValue))} {w : World} {data : RHashData im}
  {run : Running}

theorem hashSetAll_appends (lawful : im.Lawful) (sound : data.Sound) (quiet : run.parked = false)
    (agrees : ∀ row ∈ rows, RowAgrees w data.compareByIdentity row) (distinct : Distinct rows)
    (absent : ∀ row ∈ rows, Absent data.rows row.1) :
    ∃ data' run' added, hashSetAll w run data (rows.map (·.2)) = .done (data', run') ∧
      run'.parked = false ∧ data'.rows = data.rows ++ added ∧ Forall₂ SameEntry rows added := by
  induction rows generalizing run data with
  | nil => exact ⟨data, run, [], rfl, quiet, (append_nil _).symm, .nil⟩
  | cons first rest ih =>
    obtain ⟨k, projects, equal⟩ := agrees first mem_cons_self
    obtain ⟨next, running, kept, set, stored, calm⟩ :=
      hashSetUnder_stores lawful sound first.2.2 projects quiet
    have fresh : Absent data.rows k := by
      intro row mem
      rw [← BEq.congr_right equal]
      exact absent first mem_cons_self row mem
    have appended : next.rows =
        data.rows ++ ([(k, (kept, first.2.2))] : List (Key eql × (RubyValue × RubyValue))) := by
      rw [stored.rows, insert_absent data.rows k _ fresh]
    have later : ∀ row ∈ rest, Absent next.rows row.1 := by
      intro row mem other there
      rw [appended, mem_append, mem_singleton] at there
      rcases there with earlier | rfl
      · exact absent row (mem_cons_of_mem _ mem) other earlier
      · exact (BEq.congr_left equal).symm.trans (rel_of_pairwise_cons distinct mem)
    obtain ⟨last, final, added, loop, ends, listed, entries⟩ := ih stored.sound calm
      (fun row mem => stored.mode ▸ agrees row (mem_cons_of_mem _ mem))
      (List.Pairwise.of_cons distinct) later
    refine ⟨last, final, (k, (kept, first.2.2)) :: added, ?_, ends, ?_,
      .cons ⟨BEq.symm equal, rfl⟩ entries⟩
    · rw [map_cons, hashSetAll, Outcome.bind_eq_done]
      exact ⟨(next, running), set, loop⟩
    · rw [listed, appended, append_assoc]
      rfl

/-- A call that makes a hash with an entry for each row finds each row. -/
theorem keepsEntries_of_entries (lawful : im.Lawful) {made : Outcome (RHashData im × Running)}
    (done : made = .done (data, run)) (calm : run.parked = false) (ok : TableOk w data)
    (agrees : ∀ row ∈ rows, RowAgrees w data.compareByIdentity row)
    (entries : Forall₂ SameEntry rows data.rows) : KeepsEntries w rows made := by
  refine ⟨data, run, done, calm, fun row mem => ?_⟩
  obtain ⟨k, projects, equal⟩ := agrees row mem
  obtain ⟨stored, there, same, value⟩ := forall₂_meets entries mem
  rw [← value]
  exact (ok.lookup lawful there projects (BEq.trans same equal)).1

section

variable (lawful : im.Lawful) (w : World) (run : Running) (src : RHashData im) (ok : TableOk w src)

include lawful ok

/-- `hash_new` of some rows of a copyable hash has an entry for each of them. -/
theorem hashNew_entries (free : Copyable w src) (quiet : run.parked = false)
    (kept : rows.Sublist src.rows) :
    ∃ (fresh : RHashData im) (run' : Running), hashNew w run (rows.map (·.2)) = .done (fresh, run') ∧
      run'.parked = false ∧ Forall₂ SameEntry rows fresh.rows := by
  obtain ⟨fresh, run', added, made, calm, listed, entries⟩ :=
    hashSetAll_appends lawful (RHashData.new_sound RubyValue.nil) quiet
    (fun row mem => ok.structural free row (kept.subset mem))
    (ok.sound.distinct.sublist kept)
    (fun row _ other there => by simp [RHashData.new, RHashData.rows] at there)
  exact ⟨fresh, run', made, calm, listed ▸ entries⟩

theorem hashNewLike_keeps (free : Copyable w src) (quiet : run.parked = false)
    (kept : rows.Sublist src.rows) :
    KeepsEntries w rows (hashNewLike w run src (rows.map (·.2))) := by
  obtain ⟨fresh, run', made, calm, entries⟩ := hashNew_entries lawful w run src ok free quiet kept
  have copied : hashNewLike w run src (rows.map (·.2)) = .done (copyHashMeta src fresh, run') := by
    rw [hashNewLike, Outcome.bind_eq_done]
    exact ⟨(fresh, run'), made, rfl⟩
  have copyOk := hashNewLike_tableOk lawful (free.imp id (fun free pair mem => by
    obtain ⟨row, there, rfl⟩ := mem_map.mp mem
    exact free row (kept.subset there))) copied
  exact keepsEntries_of_entries lawful copied calm copyOk
    (fun row mem => ok.agrees row (kept.subset mem)) entries

theorem dupValue_keeps (free : Copyable w src) (quiet : run.parked = false) :
    KeepsEntries w src.rows (dupValue w run src) := by
  rw [dupValue, hashPairsSnapshot_rows lawful]
  exact hashNewLike_keeps lawful w run src ok free quiet (List.Sublist.refl _)

theorem hashMerge_keeps (free : Copyable w src) (quiet : run.parked = false)
    (block : Option ConflictBlock) : KeepsEntries w src.rows (hashMerge w run src [] block) := by
  obtain ⟨data, run', made, calm, entries⟩ := dupValue_keeps lawful w run src ok free quiet
  refine ⟨data, run', ?_, calm, entries⟩
  rw [hashMerge, Outcome.bind_eq_done]
  exact ⟨(data, run'), made, rfl⟩

theorem hashCompact_keeps (free : Copyable w src) (quiet : run.parked = false) :
    KeepsEntries w (src.rows.filter fun row => row.2.2 ≠ .nil) (hashCompact w run src) := by
  have pairs : (hashPairsSnapshot src).filter (fun pair => pair.2 ≠ .nil) =
      (src.rows.filter fun row => row.2.2 ≠ .nil).map (·.2) := by
    rw [hashPairsSnapshot_rows lawful, filter_map]
    rfl
  rw [hashCompact, pairs]
  exact hashNewLike_keeps lawful w run src ok free quiet filter_sublist

end

end Copies

structure HashState {eql : UserEql} (im : ValueMap eql) where
  world : World
  tables : Addr → Option (RHashData im)
  next : Addr

inductive HashStep where
  | hashNew (pairs : Pairs)
  | hashSet (h : Addr) (key value : RubyValue)
  | hashSetChecked (h : Addr) (key value : RubyValue)
  | hashDelete (h : Addr) (key : RubyValue)
  | enableCompareByIdentity (h : Addr)
  /-- The Hash arm of `dup_value`. -/
  | dup (h : Addr)
  /-- `Hash#merge`, with its arguments already converted to hashes. -/
  | merge (h : Addr) (args : List Addr) (block : Option ConflictBlock)
  | compact (h : Addr)
  /-- `Hash#replace`, with its argument already converted to a hash. -/
  | replace (h other : Addr)
  | exceptKeys (h : Addr) (names : List String)
  /-- `hash_iter_guard`. -/
  | iterBegin (h : Addr)
  | iterEnd (h : Addr)
  /-- Anything else: the program changes what references lead to. -/
  | outside (world : World)

namespace HashState

variable {eql : UserEql} {im : ValueMap eql}

def start (world : World) (next : Addr) : HashState im := ⟨world, fun _ => none, next⟩

variable (s : HashState im)

/-- Every operation starts with no raise parked: the row before it has reported its own. -/
def running : Running := ⟨s.next, false⟩

def put (h : Addr) (data : RHashData im) (next : Addr) : HashState im :=
  { s with tables := fun addr => if addr = h then some data else s.tables addr, next := next }

/-- The state after a call that writes a hash. An exception leaves it as it was. -/
def write (h : Addr) : Outcome (RHashData im × Running) → Option (HashState im)
  | .overflow => none
  | .raised _ => some s
  | .done (data, run) => some (s.put h data run.next)

/-- The state after a call that makes a hash. A raise parked on the way is reported instead of
the hash. -/
def make : Outcome (RHashData im × Running) → Option (HashState im)
  | .overflow => none
  | .raised _ => some s
  | .done (data, run) =>
    if run.parked then some { s with next := run.next }
    else some (s.put run.next data (run.next + 1))

/-- One step. There is none when the named hash does not exist or the process dies. -/
def step : HashStep → Option (HashState im)
  | .hashNew pairs => s.make (Value.hashNew s.world s.running pairs)
  | .hashSet h key value => do
    let data ← s.tables h
    s.write h (hashSetUnder s.world s.running data key value)
  | .hashSetChecked h key value => do
    let data ← s.tables h
    s.write h (Value.hashSetChecked s.world s.running data key value)
  | .hashDelete h key => do
    let data ← s.tables h
    s.write h ((Value.hashDelete s.world data key).run s.running)
  | .enableCompareByIdentity h => do
    let data ← s.tables h
    s.write h (hashEnableCompareByIdentity s.world s.running data)
  | .dup h => do
    let data ← s.tables h
    s.make (dupValue s.world s.running data)
  | .merge h args block => do
    let data ← s.tables h
    let others ← args.mapM s.tables
    s.make (hashMerge s.world s.running data (others.map hashPairsSnapshot) block)
  | .compact h => do
    let data ← s.tables h
    s.make (hashCompact s.world s.running data)
  | .replace h other => do
    let data ← s.tables h
    let otherData ← s.tables other
    s.write h (hashReplace s.world s.running data (if other = h then none else some otherData))
  | .exceptKeys h names => do
    let data ← s.tables h
    s.make (hashExceptKeys s.world s.running data names)
  | .iterBegin h => do
    let data ← s.tables h
    some (s.put h { data with iterating := data.iterating + 1 } s.next)
  | .iterEnd h => do
    let data ← s.tables h
    some (s.put h { data with iterating := data.iterating - 1 } s.next)
  | .outside world => some { s with world := world }

def run (s : HashState im) : List HashStep → Option (HashState im)
  | [] => some s
  | op :: ops => do
    let next ← s.step op
    next.run ops

/-- No key that is stored was mutated: each projects as it did, in both modes. -/
def Unmutated (world : World) : Prop :=
  ∀ h data, s.tables h = some data → ∀ row ∈ data.rows, ∀ byIdentity,
    hashKeyIn world row.2.1 byIdentity = hashKeyIn s.world row.2.1 byIdentity

/-- Steps outside the hashes do not mutate stored keys. -/
def KeepsKeys : HashStep → Prop
  | .outside world => s.Unmutated world
  | _ => True

def CopiesCopyable : HashStep → Prop
  | .dup h | .merge h _ _ | .compact h | .exceptKeys h _ =>
    ∀ data, s.tables h = some data → Copyable s.world data
  | _ => True

def Along (condition : HashState im → HashStep → Prop) (s : HashState im) : List HashStep → Prop
  | [] => True
  | op :: ops => condition s op ∧ ∀ next, s.step op = some next → Along condition next ops

def Ok : Prop := ∀ h data, s.tables h = some data → TableOk s.world data

variable {data : RHashData im}

theorem put_ok (h : Addr) (next : Addr) (ok : s.Ok)
    (good : TableOk s.world data) : (s.put h data next).Ok := by
  intro addr found there
  simp only [put] at there
  split at there
  · cases there
    exact good
  · exact ok addr found there

variable {call : Outcome (RHashData im × Running)} {h : Addr}

theorem write_ok {s' : HashState im}
    (ok : s.Ok) (good : ∀ data run, call = .done (data, run) → TableOk s.world data)
    (written : s.write h call = some s') : s'.Ok := by
  cases call with
  | overflow => cases written
  | raised message => cases written; exact ok
  | done result =>
    cases written
    exact s.put_ok h result.2.next ok (good result.1 result.2 rfl)

theorem make_ok {s' : HashState im} (ok : s.Ok)
    (good : ∀ data run, call = .done (data, run) → TableOk s.world data)
    (made : s.make call = some s') : s'.Ok := by
  cases call with
  | overflow => cases made
  | raised message => cases made; exact ok
  | done result =>
    cases parked : result.2.parked with
    | true =>
      simp only [make, parked, if_true, Option.some.injEq] at made
      subst made
      exact ok
    | false =>
      simp only [make, parked, Bool.false_eq_true, if_false, Option.some.injEq] at made
      subst made
      exact s.put_ok _ _ ok (good result.1 result.2 rfl)

theorem tableOk_iterating (ok : TableOk w data) (count : Nat) :
    TableOk w { data with iterating := count } where
  sound := ⟨ok.sound.distinct, ok.sound.bounded⟩
  agrees := ok.agrees

variable [EquivBEq (Key eql)]

omit [EquivBEq (Key eql)] in
/-- What copying functions need of their source, as a condition on its pairs. -/
theorem copyable_pairs (lawful : im.Lawful) (free : Copyable w data) :
    data.compareByIdentity = false ∨ ∀ pair ∈ hashPairsSnapshot data, ModeFree w pair.1 := by
  refine free.imp id (fun free pair mem => ?_)
  rw [hashPairsSnapshot_rows lawful] at mem
  obtain ⟨row, there, rfl⟩ := mem_map.mp mem
  exact free row there

theorem step_ok (lawful : im.Lawful) (s : HashState im) {s' : HashState im} {op : HashStep}
    (ok : s.Ok)
    (keys : s.KeepsKeys op) (copies : s.CopiesCopyable op) (taken : s.step op = some s') :
    s'.Ok := by
  cases op with
  | hashNew pairs =>
    exact s.make_ok ok
      (fun data run made => (hashNew_tableOk lawful made).1) taken
  | hashSet h key value =>
    obtain ⟨data, there, taken⟩ := Option.bind_eq_some_iff.mp taken
    exact s.write_ok ok (fun data' run set =>
      (hashSetUnder_tableOk lawful (ok h data there) set).1) taken
  | hashSetChecked h key value =>
    obtain ⟨data, there, taken⟩ := Option.bind_eq_some_iff.mp taken
    exact s.write_ok ok (fun data' run set =>
      hashSetChecked_tableOk lawful (ok h data there) set) taken
  | hashDelete h key =>
    obtain ⟨data, there, taken⟩ := Option.bind_eq_some_iff.mp taken
    exact s.write_ok ok (fun data' run deleted =>
      (hashDelete_tableOk lawful (ok h data there) deleted).1) taken
  | enableCompareByIdentity h =>
    obtain ⟨data, there, taken⟩ := Option.bind_eq_some_iff.mp taken
    exact s.write_ok ok (fun data' run enabled =>
      hashEnableCompareByIdentity_tableOk lawful (ok h data there) enabled) taken
  | dup h =>
    obtain ⟨data, there, taken⟩ := Option.bind_eq_some_iff.mp taken
    exact s.make_ok ok (fun data' run made =>
      hashNewLike_tableOk lawful (copyable_pairs lawful (copies data there)) made) taken
  | merge h args block =>
    obtain ⟨data, there, taken⟩ := Option.bind_eq_some_iff.mp taken
    obtain ⟨others, -, taken⟩ := Option.bind_eq_some_iff.mp taken
    refine s.make_ok ok (fun data' run made => ?_) taken
    rw [hashMerge, Outcome.bind_eq_done] at made
    obtain ⟨⟨fresh, running⟩, first, made⟩ := made
    have start := hashNewLike_tableOk lawful (copyable_pairs lawful (copies data there)) first
    exact mergeInto_tableOk lawful start made
  | compact h =>
    obtain ⟨data, there, taken⟩ := Option.bind_eq_some_iff.mp taken
    refine s.make_ok ok (fun data' run made => ?_) taken
    refine hashNewLike_tableOk lawful ?_ made
    exact (copyable_pairs lawful (copies data there)).imp id
      (fun free pair mem => free pair (mem_of_mem_filter mem))
  | replace h other =>
    obtain ⟨data, there, taken⟩ := Option.bind_eq_some_iff.mp taken
    obtain ⟨otherData, -, taken⟩ := Option.bind_eq_some_iff.mp taken
    exact s.write_ok ok (fun data' run replaced =>
      (hashReplace_tableOk lawful (ok h data there) replaced).1) taken
  | exceptKeys h names =>
    obtain ⟨data, there, taken⟩ := Option.bind_eq_some_iff.mp taken
    exact s.make_ok ok (fun data' run made =>
      hashExceptKeys_tableOk lawful (ok h data there) (copies data there) made) taken
  | iterBegin h | iterEnd h =>
    obtain ⟨data, there, taken⟩ := Option.bind_eq_some_iff.mp taken
    cases taken
    exact s.put_ok h s.next ok (tableOk_iterating (ok h data there) _)
  | outside world =>
    cases taken
    intro h data there
    have good := ok h data there
    refine ⟨good.sound, fun row mem => ?_⟩
    obtain ⟨k, projects, equal⟩ := good.agrees row mem
    exact ⟨k, (keys h data there row mem _).trans projects, equal⟩

theorem run_ok (lawful : im.Lawful) {ops : List HashStep} {s s' : HashState im} (ok : s.Ok)
    (keys : Along KeepsKeys s ops) (copies : Along CopiesCopyable s ops)
    (taken : s.run ops = some s') : s'.Ok := by
  induction ops generalizing s with
  | nil => cases taken; exact ok
  | cons op ops ih =>
    obtain ⟨next, first, taken⟩ := Option.bind_eq_some_iff.mp taken
    exact ih (s.step_ok lawful ok keys.1 copies.1 first) (keys.2 next first)
      (copies.2 next first) taken

/-- The hashes of a state are sound: each row is stored under the projection of its original
key in the hash's own mode, row keys are pairwise distinct, and each key the hash lists is
found again. -/
structure Sound (s : HashState im) : Prop where
  agrees : ∀ h data, s.tables h = some data →
    ∀ row ∈ data.rows, RowAgrees s.world data.compareByIdentity row
  distinct : ∀ h data, s.tables h = some data → Distinct data.rows
  found : ∀ h data, s.tables h = some data → ∀ key ∈ hashKeys data,
    (∃ value, hashLookup s.world data key = pure (some value)) ∧
      hashHasKey s.world data key = pure true

/-- Copies of a hash keep its entries: `dup` and `merge` without arguments all of them,
`compact` those whose value is not nil. -/
def CopiesKeep (data : RHashData im) : Prop :=
  KeepsEntries s.world data.rows (dupValue s.world s.running data) ∧
    KeepsEntries s.world data.rows (hashMerge s.world s.running data [] none) ∧
      KeepsEntries s.world (data.rows.filter fun row => row.2.2 ≠ .nil)
        (hashCompact s.world s.running data)

theorem Ok.sound (lawful : im.Lawful) {s : HashState im} (ok : s.Ok) : s.Sound where
  agrees h data there := (ok h data there).agrees
  distinct h data there := (ok h data there).sound.distinct
  found h data there key mem := by
    rw [hashKeys, hashPairsSnapshot_rows lawful, map_map] at mem
    obtain ⟨row, stored, rfl⟩ := mem_map.mp mem
    obtain ⟨k, projects, equal⟩ := (ok h data there).agrees row stored
    obtain ⟨value, present⟩ := (ok h data there).lookup lawful stored projects equal
    exact ⟨⟨row.2.2, value⟩, present⟩

omit [EquivBEq (Key eql)] in
/-- In every run from a program without hashes that mutates no stored key and copies only
copyable hashes, the hashes are sound in the state reached, and every copyable hash there has
copies that keep its entries. -/
theorem run_hashes_sound (laws : EqlLaws eql) (lawful : im.Lawful) (world : World) (next : Addr)
    (ops : List HashStep) (s : HashState im)
    (keys : Along KeepsKeys (start world next : HashState im) ops)
    (copies : Along CopiesCopyable (start world next : HashState im) ops)
    (taken : (start world next).run ops = some s) :
    s.Sound ∧ ∀ h data, s.tables h = some data → Copyable s.world data → s.CopiesKeep data := by
  have := Key.equivBEq laws
  have ok : s.Ok := run_ok lawful
    (fun h data there => by simp [start] at there) keys copies taken
  refine ⟨ok.sound lawful, fun h data there free => ?_⟩
  have good := ok h data there
  exact ⟨dupValue_keeps lawful s.world s.running data good free rfl,
    hashMerge_keeps lawful s.world s.running data good free rfl none,
    hashCompact_keeps lawful s.world s.running data good free rfl⟩

end HashState

/-! ## A copy that is not copyable

A hash that compares by identity holds a string. Its `dup` stores the string under its bytes,
in a hash that looks it up by address. -/

/-- A world in which every string is `"a"` and nothing else is used. -/
def plainWorld : World where
  stackDepth := 4
  symbolId _ := 0
  str _ := ⟨[97], Enc.utf8⟩
  strFrozen _ := false
  bigInt _ := 2 ^ 64
  rational _ := (1, 2)
  complex _ := (.nil, .nil)
  array _ := []
  hashPairs _ := []
  range _ := (.nil, .nil, false)
  regexp _ := ⟨"", false, false, false⟩
  matchData _ := ⟨[], ⟨"", false, false, false⟩, []⟩
  userHash _ := .absent
  builtinPayload _ := none

def plainStart : HashState plainMap := HashState.start plainWorld 1

/-- An identity hash that holds a string, and its `dup`. -/
def dupIdentity : List HashStep :=
  [.hashNew [], .enableCompareByIdentity 1, .hashSet 1 (.str (.shared 0)) (.bool true), .dup 1]

/-- The `dup` lists a key that it does not find. -/
theorem dup_of_identity_hash_unsound :
    ¬ ∀ (ops : List HashStep) (s : HashState plainMap),
      plainStart.Along HashState.KeepsKeys ops → plainStart.run ops = some s →
        s.Sound ∧ ∀ h data, s.tables h = some data → s.CopiesKeep data := by
  intro claim
  obtain ⟨s, reached⟩ : ∃ s, plainStart.run dupIdentity = some s := ⟨_, rfl⟩
  have calm : plainStart.Along HashState.KeepsKeys dupIdentity := by
    simp [dupIdentity, HashState.Along, HashState.KeepsKeys]
  have sound := (claim dupIdentity s calm reached).1
  cases reached
  obtain ⟨⟨value, found⟩, -⟩ := sound.found 3 _ rfl (.str (.frozenCopy 2 ⟨[97], Enc.utf8⟩))
    (mem_cons_self ..)
  cases found

/-- A hash of two entries that compares by structure, and its `dup`. -/
theorem run_hashes_sound_dup :
    let ops : List HashStep :=
      [.hashNew [(.str (.shared 0), .bool true), (.symbol (.text "b"), .nil)], .dup 2]
    ∃ s : HashState plainMap, plainStart.run ops = some s ∧ s.Sound := by
  intro ops
  obtain ⟨s, reached⟩ : ∃ s, plainStart.run ops = some s := ⟨_, rfl⟩
  refine ⟨s, reached, (HashState.run_hashes_sound eqlSame_laws (listIndexMap_lawful _ _) plainWorld
    1 ops s ?_ ?_ reached).1⟩
  · simp [ops, HashState.Along, HashState.KeepsKeys]
  · refine ⟨trivial, fun next made => ?_⟩
    cases made
    exact ⟨fun data there => by cases there; exact .inl rfl, fun _ _ => trivial⟩

/-! ## Replacing a hash

`replace` deletes the receiver's keys and then reads its argument, and it leaves the receiver's
mode. -/

namespace HashState

variable {eql : UserEql} {im : ValueMap eql}

/-- `replace` of the hash at `h` by the one at `g` leaves the entries and the mode of the latter at
`h`, and leaves it alone if it is another one. -/
def Replaces (s : HashState im) (h g : Addr) (src : RHashData im) : Prop :=
  ∃ s' data, s.step (.replace h g) = some s' ∧ s'.tables h = some data ∧
    Forall₂ SameEntry src.rows data.rows ∧ data.compareByIdentity = src.compareByIdentity ∧
      (g ≠ h → s'.tables g = some src)

theorem step_replace {s : HashState im} {h g : Addr} {data src : RHashData im}
    (there : s.tables h = some data) (given : s.tables g = some src) :
    s.step (.replace h g) =
      s.write h (hashReplace s.world s.running data (if g = h then none else some src)) := by
  simp only [step, there, given, Option.bind_eq_bind, Option.bind_some]

theorem write_mode {s s' : HashState im} {data data' : RHashData im}
    (there : s.tables h = some data) (keeps : ∀ made run, call = .done (made, run) →
      made.compareByIdentity = data.compareByIdentity)
    (written : s.write h call = some s') (now : s'.tables h = some data') :
    data'.compareByIdentity = data.compareByIdentity := by
  cases call with
  | overflow => cases written
  | raised message =>
    cases written
    cases there.symm.trans now
    rfl
  | done result =>
    cases written
    simp only [put, if_true, Option.some.injEq] at now
    subst now
    exact keeps result.1 result.2 rfl

/-- For two hashes whose rows are stored under the projections of their keys, `replace` does what it
is for exactly when they compare alike and the argument is not the receiver, or the receiver is
empty. A row that is not is neither deleted from the receiver nor copied under its key. -/
theorem replaces_iff (laws : EqlLaws eql) (lawful : im.Lawful) {s : HashState im}
    {h g : Addr} {data src : RHashData im} (there : s.tables h = some data)
    (given : s.tables g = some src) (dataOk : TableOk s.world data) (srcOk : TableOk s.world src) :
    s.Replaces h g src ↔
      src.compareByIdentity = data.compareByIdentity ∧ (g = h → data.rows = []) := by
  have := Key.equivBEq laws
  obtain ⟨emptied, deleted, empty⟩ := hashDeleteAll_clears lawful s.running dataOk
  obtain ⟨emptyOk, emptyMode⟩ := hashDeleteAll_tableOk lawful dataOk deleted
  -- What the second loop does with the emptied receiver is what the whole call does.
  have refill : ∀ other result, hashSetAll s.world s.running emptied
      (hashPairsSnapshot (other.getD emptied)) = .done result →
      hashReplace s.world s.running data other = .done result := by
    intro other result filled
    rw [hashReplace, Outcome.bind_eq_done]
    exact ⟨_, deleted, filled⟩
  have self : hashReplace s.world s.running data none = .done (emptied, s.running) := by
    refine refill none _ ?_
    rw [Option.getD_none, hashPairsSnapshot_rows lawful, empty]
    rfl
  rw [Replaces, step_replace there given]
  constructor
  · rintro ⟨s', data', taken, now, entries, mode, -⟩
    refine ⟨mode.symm.trans (write_mode there (fun made run replaced => ?_) taken now), ?_⟩
    · exact (hashReplace_tableOk lawful dataOk replaced).2
    · rintro rfl
      cases there.symm.trans given
      rw [if_pos rfl, self] at taken
      cases taken
      simp only [put, if_true, Option.some.injEq] at now
      rw [← now, empty] at entries
      exact forall₂_nil_right_iff.mp entries
  · rintro ⟨mode, alone⟩
    by_cases same : g = h
    · subst same
      cases there.symm.trans given
      rw [if_pos rfl, self]
      refine ⟨_, emptied, rfl, if_pos rfl, ?_, emptyMode, fun other => absurd rfl other⟩
      rw [alone rfl, empty]
      exact .nil
    · obtain ⟨last, run, added, filled, -, listed, entries⟩ := hashSetAll_appends lawful
        emptyOk.sound (rfl : s.running.parked = false)
        (fun row member => (emptyMode.trans mode.symm) ▸ srcOk.agrees row member)
        srcOk.sound.distinct (fun row _ other member => by simp [empty] at member)
      rw [empty] at listed
      rw [← hashPairsSnapshot_rows lawful] at filled
      have replaced := refill (some src) (last, run) filled
      rw [if_neg same, replaced]
      refine ⟨_, last, rfl, if_pos rfl, listed ▸ entries, ?_, fun _ => (if_neg same).trans given⟩
      exact ((hashReplace_tableOk lawful dataOk replaced).2).trans mode.symm

end HashState

def twoHashes : List HashStep := [.hashNew [(.symbol (.text "a"), .nil)], .hashNew []]

/-- The first, replaced by itself, is empty. -/
theorem replace_by_itself : ∃ s src, plainStart.run twoHashes = some s ∧ s.tables 1 = some src ∧
    ¬ s.Replaces 1 1 src := by
  refine ⟨_, _, rfl, rfl, ?_⟩
  rintro ⟨s', data, taken, now, entries, -⟩
  cases taken
  cases now
  cases entries

/-- The second, replaced by the first, has its entry. -/
theorem replaces_iff_two : ∃ s src, plainStart.run twoHashes = some s ∧ s.tables 1 = some src ∧
    s.Replaces 2 1 src := by
  obtain ⟨s, src, reached, there, given, mode⟩ : ∃ (s : HashState plainMap) (src : RHashData plainMap),
      plainStart.run twoHashes = some s ∧ s.tables 2 = some (RHashData.new .nil) ∧
        s.tables 1 = some src ∧ src.compareByIdentity = false := ⟨_, _, rfl, rfl, rfl, rfl⟩
  have ok : s.Ok := by
    refine HashState.run_ok (listIndexMap_lawful _ _) (fun h data there => ?_) ?_ ?_ reached
    · cases there
    · exact ⟨trivial, fun _ _ => ⟨trivial, fun _ _ => trivial⟩⟩
    · exact ⟨trivial, fun _ _ => ⟨trivial, fun _ _ => trivial⟩⟩
  exact ⟨s, src, reached, given, (HashState.replaces_iff eqlSame_laws (listIndexMap_lawful _ _)
    there given (ok 2 _ there) (ok 1 src given)).mpr ⟨mode, fun same => absurd same (by decide)⟩⟩

end Zeo.Value
