import Zeo.Value.Hash

/-!
# The key invariant of hashes

Every row of a Hash is stored under the projection of its original key, taken in the mode the Hash
compares in, and no two rows are stored under equal keys. The operations that store and remove
single rows keep this. A copy of a Hash projects its keys anew without identity and then takes over
the flag, so it keeps it exactly when the flag is off or the keys do not depend on the mode.
-/

namespace Zeo.Value

open Zeo.Lib List AssocList RHashData

variable {w : World}

@[simp]
theorem Running.park_false (run : Running) : run.park false = run := by
  simp [Running.park]

theorem probeOf_projects (eql : UserEql) {byIdentity : Bool}
    {key : RubyValue} {k : HashKey} (projects : hashKeyIn w key byIdentity = pure k) :
    ∃ probe : Probe (Key eql), probeOf w byIdentity key = pure probe ∧ probe.key = k := by
  have owned : (do let k ← hashKeyIn w key byIdentity; pure (Probe.ofKey k)
      : Projected (Probe (Key eql))) = pure (.ofKey k) := by
    rw [projects, pure_bind]
  cases key with
  | str s =>
    cases byIdentity with
    | true => exact ⟨.ofKey k, owned, rfl⟩
    | false =>
      cases projects
      exact ⟨strProbe (w.strBuf s), rfl, rfl⟩
  | _ => exact ⟨.ofKey k, owned, rfl⟩

section Tables

variable {eql : UserEql} {im : ValueMap eql}

/-- A row is stored under the projection of its original key. -/
def RowAgrees (w : World) (byIdentity : Bool) (row : Key eql × (RubyValue × RubyValue)) : Prop :=
  ∃ k : HashKey, hashKeyIn w row.2.1 byIdentity = pure k ∧ (row.1 == (k : Key eql)) = true

structure TableOk (w : World) (data : RHashData im) : Prop where
  /-- The storage is sound: the row keys are pairwise distinct. -/
  sound : data.Sound
  /-- Every row is stored under the projection of its key in the hash's own mode. -/
  agrees : ∀ row ∈ data.rows, RowAgrees w data.compareByIdentity row

def ModeFree (w : World) (key : RubyValue) : Prop := hashKeyIn w key true = hashKeyIn w key false

/-- What a copy needs: the hash compares by structure, or none of its keys depends on the mode. -/
def Copyable (w : World) (data : RHashData im) : Prop :=
  data.compareByIdentity = false ∨ ∀ row ∈ data.rows, ModeFree w row.2.1

theorem hashPairsSnapshot_rows (lawful : im.Lawful) (data : RHashData im) :
    hashPairsSnapshot data = data.rows.map (·.2) := by
  cases data with
  | small rows => rfl
  | big table => exact lawful.values_iter table

theorem iter_toList (data : RHashData im) : data.iter.toList = data.rows := by
  cases data <;> rfl

variable {data data' : RHashData im} {run run' : Running} {key value : RubyValue} {k : HashKey}
variable {pairs : Pairs}

theorem insert_compareByIdentity (data : RHashData im) (k : Key eql)
    (pair : RubyValue × RubyValue) :
    (data.insert k pair).1.compareByIdentity = data.compareByIdentity := by
  cases data with
  | big table => rfl
  | small rows =>
    simp only [RHashData.insert]
    split
    · rfl
    · split <;> rfl

theorem getIndexMut_compareByIdentity (data : RHashData im) (index : Nat)
    (write : RubyValue × RubyValue → RubyValue × RubyValue) :
    (data.getIndexMut index write).1.compareByIdentity = data.compareByIdentity := by
  cases data <;> rfl

section

variable (w : World) (run : Running) (key : RubyValue) (byIdentity : Bool)

theorem snapshotKey_projects :
    hashKeyIn w (snapshotKey w run key byIdentity).1 byIdentity = hashKeyIn w key byIdentity := by
  cases key with
  | str s =>
    cases byIdentity with
    | true => rfl
    | false => cases frozen : w.isFrozen s <;> simp [snapshotKey, frozen, hashKeyIn_str, World.strBuf]
  | _ => rfl

theorem snapshotKey_parked :
    (snapshotKey w run key byIdentity).2.parked = run.parked := by
  cases key with
  | str s => simp only [snapshotKey]; split <;> rfl
  | _ => rfl

theorem snapshotKey_modeFree (free : ModeFree w key) :
    (snapshotKey w run key byIdentity).1 = key := by
  cases key with
  | str s =>
    cases free
  | _ => rfl

end

/-- What storing one row comes to: the key projects to `k`, and `kept` is its stored form. -/
structure Stored (w : World) (data data' : RHashData im) (key value : RubyValue) (k : HashKey)
    (kept : RubyValue) : Prop where
  projects : hashKeyIn w key data.compareByIdentity = pure k
  keptProjects : hashKeyIn w kept data.compareByIdentity = pure k
  rows : data'.rows = (AssocList.insert data.rows (k : Key eql) (kept, value)).1
  sound : data'.Sound
  mode : data'.compareByIdentity = data.compareByIdentity
  /-- A key that does not depend on the mode is stored as it is. -/
  kept_eq : ModeFree w key → kept = key

theorem stored_insert (lawful : im.Lawful) (run : Running) (sound : data.Sound) (value : RubyValue)
    (projects : hashKeyIn w key data.compareByIdentity = pure k) :
    Stored w data
      (data.insert k ((snapshotKey w run key data.compareByIdentity).1, value)).1 key value k
      (snapshotKey w run key data.compareByIdentity).1 where
  projects := projects
  keptProjects := by rw [snapshotKey_projects, projects]
  rows := (insert_rows lawful sound k _).1
  sound := insert_sound lawful sound k _
  mode := insert_compareByIdentity data k _
  kept_eq := snapshotKey_modeFree w run key data.compareByIdentity

/-- What `hash_set` does: it writes a row it hit in place, parks a raise and changes nothing, or
inserts the row. -/
theorem hashSetUnder_done (set : hashSetUnder w run data key value = .done (data', run')) :
    (∃ index, stringHit w data key = some index ∧
      data' = (data.getIndexMut index fun _ => ((snapshotKey w run key false).1, value)).1 ∧
      run' = (snapshotKey w run key false).2) ∨
    (data' = data ∧ run'.parked = true) ∨
    ∃ k, hashKeyIn w key data.compareByIdentity = pure k ∧
      data' = (data.insert k ((snapshotKey w run key data.compareByIdentity).1, value)).1 ∧
      run' = (snapshotKey w run key data.compareByIdentity).2 := by
  cases hit : stringHit w data key with
  | some index =>
    simp only [hashSetUnder, hit, Outcome.done.injEq, Prod.mk.injEq] at set
    exact .inl ⟨index, rfl, set.1.symm, set.2.symm⟩
  | none =>
    cases projection : hashKeyIn w key data.compareByIdentity with
    | overflow => simp [hashSetUnder, hit, projection, Projected.run, bind, Outcome.bind] at set
    | found k raised =>
      simp only [hashSetUnder, hit, projection, Projected.run, bind, Outcome.bind] at set
      cases parked : (run.park raised).parked with
      | true =>
        simp only [parked] at set
        obtain ⟨rfl, rfl⟩ := set
        exact .inr (.inl ⟨rfl, parked⟩)
      | false =>
        obtain ⟨calm, rfl⟩ := Bool.or_eq_false_iff.mp parked
        simp only [Running.park_false, calm, Bool.false_eq_true, if_false, Outcome.done.injEq,
          Prod.mk.injEq] at set
        exact .inr (.inr ⟨k, rfl, set.1.symm, set.2.symm⟩)

/-- `hash_set` appends one pair or leaves their number. The key is kept, but for a string that is
not frozen in a hash that compares by structure. -/
theorem hashSetUnder_pairs (lawful : im.Lawful) (sound : data.Sound)
    (set : hashSetUnder w run data key value = .done (data', run')) :
    data'.Sound ∧ data'.compareByIdentity = data.compareByIdentity ∧
      ((hashPairsSnapshot data').length = (hashPairsSnapshot data).length ∨
        ∃ kept, hashPairsSnapshot data' = hashPairsSnapshot data ++ [(kept, value)] ∧
          (kept = key ∧ (data.compareByIdentity = true ∨ ∀ s, key = .str s → w.isFrozen s = true) ∨
            data.compareByIdentity = false ∧ ∃ s n, key = .str s ∧ w.isFrozen s = false ∧
              kept = .str (.frozenCopy n (w.strBuf s)))) := by
  rw [hashPairsSnapshot_rows lawful, hashPairsSnapshot_rows lawful]
  rcases hashSetUnder_done set with ⟨index, -, rfl, -⟩ | ⟨rfl, -⟩ | ⟨k, -, rfl, -⟩
  · refine ⟨getIndexMut_sound lawful sound index _,
      getIndexMut_compareByIdentity data index _, .inl ?_⟩
    rw [(getIndexMut_rows lawful data index _).1]
    simp [modifyAt]
  · exact ⟨sound, rfl, .inl rfl⟩
  · refine ⟨insert_sound lawful sound k _, insert_compareByIdentity data k _, ?_⟩
    rw [(insert_rows lawful sound k _).1]
    rcases absent_or_split data.rows k with
      absent | ⟨before, stored, old, after, split, missing, equal⟩
    · rw [insert_absent _ _ _ absent, map_append]
      refine .inr ⟨_, rfl, ?_⟩
      cases key with
      | str s =>
        simp only [snapshotKey]
        split
        · rename_i copied
          obtain ⟨structure', thawed⟩ := Bool.and_eq_true_iff.mp copied
          exact .inr ⟨by simpa using structure', s, _, rfl, by simpa using thawed, rfl⟩
        · rename_i shared
          refine .inl ⟨rfl, ?_⟩
          cases identity : data.compareByIdentity with
          | true => exact .inl rfl
          | false =>
            refine .inr fun s' same => ?_
            cases same
            simpa [identity] using shared
      | _ => exact .inl ⟨rfl, .inr fun _ same => by cases same⟩
    · rw [split, insert_split _ _ _ _ missing equal]
      exact .inl (by simp)

/-- A borrowed string that is found has an equal key in the hash. -/
theorem getIndexOf_strProbe (lawful : im.Lawful) {buf : StrBuf} {index : Nat}
    (hit : data.getIndexOf (strProbe buf) = some index) :
    ∃ row ∈ data.rows, (row.1 == (strProbe buf : Probe (Key eql)).key) = true := by
  by_contra none
  have absent : Absent data.rows (strProbe buf : Probe (Key eql)).key := by
    intro row mem
    by_contra equal
    exact none ⟨row, mem, by simpa using equal⟩
  cases data with
  | small rows =>
    have missed : AssocList.getIndexOf rows (strProbe buf) = .none := by
      refine findIdx?_eq_none_iff.mpr fun row mem => ?_
      have differs := absent row mem
      obtain ⟨stored, pair⟩ := row
      cases stored with
      | str bytes tag =>
        change (tag == buf.hashKeyTag && bytes == buf.bytes) = false
        rw [Bool.and_comm]
        exact differs
      | _ => rfl
    cases missed.symm.trans hit
  | big table => cases (lawful.getIndexOf_absent table _ absent).symm.trans hit

/-- With nothing parked, a key that projects without a raise is stored behind the others, or in the
place of one that is equal to it. -/
theorem hashSetUnder_rows (lawful : im.Lawful) (sound : data.Sound)
    (projects : hashKeyIn w key data.compareByIdentity = pure k) (quiet : run.parked = false)
    (set : hashSetUnder w run data key value = .done (data', run')) :
    run'.parked = false ∧
      (Absent data.rows (k : Key eql) ∧ (∃ row, row.1 = k ∧ data'.rows = data.rows ++ [row]) ∨
        data'.rows.length = data.rows.length ∧
          ∃ row ∈ data.rows, (row.1 == (k : Key eql)) = true) := by
  cases hit : stringHit w data key with
  | some index =>
    simp only [hashSetUnder, hit, Outcome.done.injEq, Prod.mk.injEq] at set
    obtain ⟨rfl, rfl⟩ := set
    refine ⟨(snapshotKey_parked w run key false).trans quiet, .inr ⟨?_, ?_⟩⟩
    · rw [(getIndexMut_rows lawful data index _).1]
      simp [modifyAt]
    · cases key with
      | str s =>
        cases mode : data.compareByIdentity with
        | true => simp [stringHit, mode] at hit
        | false =>
          rw [mode] at projects
          cases projects
          exact getIndexOf_strProbe lawful (by simpa [stringHit, mode] using hit)
      | _ => simp [stringHit] at hit
  | none =>
    simp only [hashSetUnder, hit, projects, Projected.run, pure, bind, Outcome.bind,
      Running.park_false, quiet, Bool.false_eq_true, if_false, Outcome.done.injEq,
      Prod.mk.injEq] at set
    obtain ⟨rfl, rfl⟩ := set
    refine ⟨(snapshotKey_parked w run key _).trans quiet, ?_⟩
    rw [(insert_rows lawful sound k _).1]
    rcases absent_or_split data.rows (k : Key eql) with
      absent | ⟨before, stored, old, after, split, missing, equal⟩
    · exact .inl ⟨absent, _, rfl, by rw [insert_absent _ _ _ absent]⟩
    · rw [split, insert_split _ _ _ _ missing equal]
      exact .inr ⟨by simp, _, mem_append_right before mem_cons_self, equal⟩

theorem new_tableOk (w : World) : TableOk w (new .nil : RHashData im) where
  sound := new_sound RubyValue.nil
  agrees row mem := by simp [new, rows] at mem

/-- What `hash_set` keeps on each pair, a loop of `hash_set` keeps. -/
theorem hashSetAll_induction (keeps : RHashData im → Prop)
    (step : ∀ run data key value data' run', (key, value) ∈ pairs → keeps data →
      hashSetUnder w run data key value = .done (data', run') → keeps data')
    (start : keeps data)
    (set : hashSetAll w run data pairs = .done (data', run')) : keeps data' := by
  induction pairs generalizing run data with
  | nil =>
    simp only [hashSetAll, Outcome.done.injEq, Prod.mk.injEq] at set
    exact set.1 ▸ start
  | cons pair rest ih =>
    obtain ⟨key, value⟩ := pair
    rw [hashSetAll, Outcome.bind_eq_done] at set
    obtain ⟨⟨middle, running⟩, first, set⟩ := set
    refine ih ?_ ?_ set
    · intro run data key value data' run' mem
      exact step run data key value data' run' (mem_cons_of_mem _ mem)
    · exact step run data key value middle running mem_cons_self start first

/-- In a hash whose keys do not depend on the mode, the mode can be set either way. -/
theorem TableOk.setMode (ok : TableOk w data)
    (sound : data'.Sound) (rows : data'.rows = data.rows)
    (free : data'.compareByIdentity = data.compareByIdentity ∨
      ∀ row ∈ data.rows, ModeFree w row.2.1) : TableOk w data' where
  sound := sound
  agrees := by
    intro row mem
    rw [rows] at mem
    obtain ⟨k, projects, equal⟩ := ok.agrees row mem
    refine ⟨k, ?_, equal⟩
    rcases free with same | free
    · rw [same, projects]
    · have both := free row mem
      cases before : data.compareByIdentity <;> cases after : data'.compareByIdentity <;>
        rw [before] at projects
      · exact projects
      · rw [both, projects]
      · rw [← both, projects]
      · exact projects

variable {row : Key eql × (RubyValue × RubyValue)}

theorem RowAgrees.identity
    (agrees : RowAgrees w false row) : ∃ k, hashKeyIn w row.2.1 true = pure k := by
  obtain ⟨k, projects, -⟩ := agrees
  rw [hashKeyIn_identity]
  cases identityOf row.2.1 with
  | some addr => exact ⟨.identity addr, rfl⟩
  | none => exact ⟨k, projects⟩

theorem fromRows_rows (lawful : im.Lawful) {rows : List (Key eql × (RubyValue × RubyValue))}
    (distinct : AssocList.Distinct rows) :
    (fromRows .nil rows : RHashData im).rows = rows ∧
      (fromRows .nil rows : RHashData im).Sound := by
  by_cases fits : rows.length ≤ smallHashMax
  · have flat : (fromRows .nil rows : RHashData im).repr = .small rows := by
      simp [fromRows, fits]
    have same : (fromRows .nil rows : RHashData im).rows = rows := by
      rw [RHashData.rows, flat]
    refine ⟨same, by rw [same]; exact distinct, fun stored small => ?_⟩
    rw [flat] at small
    cases small
    exact fits
  · have table : (fromRows .nil rows).repr = .big (im.fromIter rows) := by
      simp [fromRows, fits]
    have same : (fromRows .nil rows : RHashData im).rows = rows := by
      rw [RHashData.rows, table]
      exact lawful.fromIter_iter rows distinct
    refine ⟨same, by rw [same]; exact distinct, fun stored small => ?_⟩
    rw [table] at small
    cases small

theorem TableOk.structural (ok : TableOk w data) (free : Copyable w data) :
    ∀ row ∈ data.rows, RowAgrees w false row := by
  intro row mem
  obtain ⟨k, projects, equal⟩ := ok.agrees row mem
  refine ⟨k, ?_, equal⟩
  rcases free with structural | free
  · rw [structural] at projects
    exact projects
  · cases mode : data.compareByIdentity with
    | false => rw [mode] at projects; exact projects
    | true => rw [mode] at projects; rw [← free row mem, projects]

/-- `hash_except_keys` meets the invariant when its source compares by structure, or no key
depends on the mode. -/
theorem hashExceptKeys_tableOk (lawful : im.Lawful) {src : RHashData im} {names : List String}
    (ok : TableOk w src) (free : Copyable w src)
    (made : hashExceptKeys w run src names = .done (data, run')) : TableOk w data := by
  rw [hashExceptKeys, Outcome.bind_eq_done] at made
  obtain ⟨⟨excluded, running⟩, -, made⟩ := made
  cases made
  rw [iter_toList]
  have kept := filter_sublist (l := src.rows)
    (p := fun row => !(excluded.any fun (k : Key eql) => k == row.1))
  obtain ⟨rows, sound⟩ := fromRows_rows lawful (ok.sound.distinct.sublist kept)
  refine ⟨sound, fun row mem => ?_⟩
  rw [rows] at mem
  exact ok.structural free row (kept.subset mem)

variable [EquivBEq (Key eql)]

theorem Stored.tableOk {kept : RubyValue} (stored : Stored w data data' key value k kept)
    (ok : TableOk w data) : TableOk w data' where
  sound := stored.sound
  agrees := by
    intro row mem
    rw [stored.mode]
    rw [stored.rows] at mem
    rcases mem_insert data.rows mem with earlier | ⟨pair, equal⟩
    · exact ok.agrees row earlier
    · exact ⟨k, by rw [pair]; exact stored.keptProjects, equal⟩

section

variable (lawful : im.Lawful)

include lawful

/-- Every original key of a hash finds its row's value again. -/
theorem TableOk.lookup (ok : TableOk w data) (mem : row ∈ data.rows)
    (projects : hashKeyIn w key data.compareByIdentity = pure k)
    (equal : (row.1 == (k : Key eql)) = true) :
    hashLookup w data key = pure (some row.2.2) ∧
      hashHasKey w data key = pure true := by
  obtain ⟨probe, found, rfl⟩ := probeOf_projects eql projects
  have value : data.get probe = some row.2 := by
    rw [get_rows lawful]
    exact get_mem data.rows ok.sound.distinct mem equal
  have present : data.containsKey probe = true := by
    rw [containsKey_rows lawful]
    exact containsKey_mem data.rows row mem probe equal
  constructor
  · simp [hashLookup, found, value]
  · simp [hashHasKey, found, present]

/-- The borrowed path of `hash_set` stores the row in place. -/
theorem stored_getIndexMut (run : Running) (sound : data.Sound) (value : RubyValue) {index : Nat}
    (hit : stringHit w data key = some index) :
    ∃ k, Stored w data
      (data.getIndexMut index fun _ => ((snapshotKey w run key false).1, value)).1 key value k
      (snapshotKey w run key false).1 := by
  cases key with
  | str s =>
    cases mode : data.compareByIdentity with
    | true => simp [stringHit, mode] at hit
    | false =>
      simp only [stringHit, mode] at hit
      rw [getIndexOf_rows lawful] at hit
      have inPlace := modifyAt_getIndexOf data.rows (strProbe (w.strBuf s))
        ((snapshotKey w run (.str s) false).1, value) hit
      refine ⟨.str (w.strBuf s).bytes (w.strBuf s).hashKeyTag, ?_⟩
      exact {
        projects := by rw [mode, hashKeyIn_str]
        keptProjects := by rw [mode, snapshotKey_projects, hashKeyIn_str]
        rows := by rw [(getIndexMut_rows lawful data index _).1]; exact inPlace
        sound := getIndexMut_sound lawful sound index _
        mode := getIndexMut_compareByIdentity data index _
        kept_eq := snapshotKey_modeFree w run (.str s) false }
  | _ => simp [stringHit] at hit

/-- `hash_set` parks a raise and changes nothing, or stores the row. -/
theorem hashSetUnder_cases (sound : data.Sound)
    (set : hashSetUnder w run data key value = .done (data', run')) :
    (data' = data ∧ run'.parked = true) ∨
      ∃ k kept, Stored w data data' key value k kept ∧ run'.parked = run.parked := by
  rcases hashSetUnder_done set with ⟨index, hit, rfl, rfl⟩ | unchanged | ⟨k, projects, rfl, rfl⟩
  · obtain ⟨k, stored⟩ := stored_getIndexMut lawful run sound value hit
    exact .inr ⟨k, _, stored, snapshotKey_parked w run key false⟩
  · exact .inl unchanged
  · exact .inr ⟨k, _, stored_insert lawful run sound value projects,
      snapshotKey_parked w run key data.compareByIdentity⟩

/-- With nothing parked, a key that projects without a raise is stored. -/
theorem hashSetUnder_stores (sound : data.Sound) (value : RubyValue)
    (projects : hashKeyIn w key data.compareByIdentity = pure k) (quiet : run.parked = false) :
    ∃ data' run' kept, hashSetUnder w run data key value = .done (data', run') ∧
      Stored w data data' key value k kept ∧ run'.parked = false := by
  cases hit : stringHit w data key with
  | some index =>
    obtain ⟨k', stored⟩ := stored_getIndexMut lawful run sound value hit
    have same : k' = k := by
      have twice := stored.projects.symm.trans projects
      cases twice
      rfl
    subst same
    exact ⟨_, _, _, by simp only [hashSetUnder, hit]; rfl, stored, by
      rw [snapshotKey_parked, quiet]⟩
  | none =>
    have stored := stored_insert lawful run sound value projects
    refine ⟨_, (snapshotKey w run key data.compareByIdentity).2, _, ?_, stored, ?_⟩
    · simp only [hashSetUnder, hit, projects, Projected.run, pure, bind, Outcome.bind]
      simp [quiet]
    · rw [snapshotKey_parked, quiet]

theorem hashSetUnder_tableOk (ok : TableOk w data)
    (set : hashSetUnder w run data key value = .done (data', run')) :
    TableOk w data' ∧ data'.compareByIdentity = data.compareByIdentity := by
  rcases hashSetUnder_cases lawful ok.sound set with
    ⟨rfl, -⟩ | ⟨k, kept, stored, -⟩
  · exact ⟨ok, rfl⟩
  · exact ⟨stored.tableOk ok, stored.mode⟩

theorem hashSetChecked_tableOk (ok : TableOk w data)
    (set : hashSetChecked w run data key value = .done (data', run')) : TableOk w data' := by
  by_cases live : 0 < data.iterating
  · rw [hashSetChecked, if_pos live, Outcome.bind_eq_done] at set
    obtain ⟨⟨present, running⟩, -, set⟩ := set
    cases present with
    | false => cases set
    | true => exact (hashSetUnder_tableOk lawful ok set).1
  · rw [hashSetChecked, if_neg live] at set
    exact (hashSetUnder_tableOk lawful ok set).1

theorem hashNew_tableOk (made : hashNew w run pairs = .done (data, run')) :
    TableOk w data ∧ data.compareByIdentity = false :=
  hashSetAll_induction (fun data => TableOk w data ∧ data.compareByIdentity = false)
    (fun run data key value data' run' _ start set => by
      obtain ⟨ok, mode⟩ := hashSetUnder_tableOk lawful start.1 set
      exact ⟨ok, mode.trans start.2⟩)
    ⟨new_tableOk w, rfl⟩ made

/-- A hash made of keys that do not depend on the mode keeps such keys only. -/
theorem hashNew_modeFree (free : ∀ pair ∈ pairs, ModeFree w pair.1)
    (made : hashNew w run pairs = .done (data, run')) :
    ∀ row ∈ data.rows, ModeFree w row.2.1 := by
  refine (hashSetAll_induction
    (fun data => data.Sound ∧ ∀ row ∈ data.rows, ModeFree w row.2.1) ?_
    ⟨new_sound RubyValue.nil, ?_⟩ made).2
  · intro run data key value data' run' mem start set
    rcases hashSetUnder_cases lawful start.1 set with
      ⟨rfl, -⟩ | ⟨k, kept, stored, -⟩
    · exact start
    · refine ⟨stored.sound, fun row there => ?_⟩
      rw [stored.rows] at there
      rcases mem_insert data.rows there with earlier | ⟨pair, -⟩
      · exact start.2 row earlier
      · have keyFree : ModeFree w key := free (key, value) mem
        rw [pair, stored.kept_eq keyFree]
        exact keyFree
  · intro row mem
    simp [new, rows] at mem

/-- A fresh hash that takes over the meta data of another meets the invariant when that other
compares by structure, or no key depends on the mode. -/
theorem hashNewLike_tableOk (free : src.compareByIdentity = false ∨ ∀ pair ∈ pairs, ModeFree w pair.1)
    (made : hashNewLike w run src pairs = .done (data, run')) : TableOk w data := by
  rw [hashNewLike, Outcome.bind_eq_done] at made
  obtain ⟨⟨fresh, running⟩, first, made⟩ := made
  cases made
  obtain ⟨ok, mode⟩ := hashNew_tableOk lawful first
  refine ok.setMode ⟨ok.sound.distinct, ok.sound.bounded⟩ rfl ?_
  rcases free with structural | free
  · exact .inl (structural.trans mode.symm)
  · exact .inr (hashNew_modeFree lawful free first)

variable {block : Option ConflictBlock} {target : RHashData im}

theorem mergePairs_tableOk (ok : TableOk w target)
    (merged : mergePairs w block run target pairs = .done (data, run')) :
    TableOk w data := by
  induction pairs generalizing run target with
  | nil => cases merged; exact ok
  | cons pair rest ih =>
    rw [mergePairs, Outcome.bind_eq_done] at merged
    obtain ⟨⟨chosen, running⟩, -, merged⟩ := merged
    rw [Outcome.bind_eq_done] at merged
    obtain ⟨⟨next, later⟩, set, merged⟩ := merged
    exact ih (hashSetUnder_tableOk lawful ok set).1 merged

theorem mergeInto_tableOk {args : List Pairs} (ok : TableOk w target)
    (merged : mergeInto w block run target args = .done (data, run')) :
    TableOk w data := by
  induction args generalizing run target with
  | nil => cases merged; exact ok
  | cons pairs rest ih =>
    rw [mergeInto, Outcome.bind_eq_done] at merged
    obtain ⟨⟨next, running⟩, first, merged⟩ := merged
    exact ih (mergePairs_tableOk lawful ok first) merged

theorem shiftRemove_tableOk (ok : TableOk w data) (probe : Probe (Key eql)) :
    TableOk w (data.shiftRemove probe).1 ∧
      (data.shiftRemove probe).1.compareByIdentity = data.compareByIdentity := by
  have mode : (data.shiftRemove probe).1.compareByIdentity = data.compareByIdentity := by
    cases data with
    | big table => rfl
    | small rows => simp only [RHashData.shiftRemove]; split <;> rfl
  refine ⟨⟨RHashData.shiftRemove_sound lawful ok.sound probe, fun row mem => ?_⟩, mode⟩
  rw [(RHashData.shiftRemove_rows lawful data probe).1] at mem
  rw [mode]
  exact ok.agrees row (mem_shiftRemove mem)

theorem hashDelete_tableOk (ok : TableOk w data)
    (deleted : (hashDelete w data key).run run = .done (data', run')) :
    TableOk w data' ∧ data'.compareByIdentity = data.compareByIdentity := by
  cases found : (probeOf w data.compareByIdentity key : Projected (Probe (Key eql))) with
  | overflow => simp [hashDelete, found, bind, Projected.bind, Projected.run] at deleted
  | found probe parked =>
    simp only [hashDelete, found] at deleted
    obtain ⟨rfl, -⟩ := deleted
    exact shiftRemove_tableOk lawful ok probe

theorem hashDeleteAll_tableOk {keys : List RubyValue} (ok : TableOk w data)
    (deleted : hashDeleteAll w run data keys = .done (data', run')) :
    TableOk w data' ∧ data'.compareByIdentity = data.compareByIdentity := by
  induction keys generalizing run data with
  | nil => cases deleted; exact ⟨ok, rfl⟩
  | cons key rest ih =>
    rw [hashDeleteAll, Outcome.bind_eq_done] at deleted
    obtain ⟨⟨next, running⟩, first, deleted⟩ := deleted
    obtain ⟨nextOk, mode⟩ := hashDelete_tableOk lawful ok first
    obtain ⟨lastOk, later⟩ := ih nextOk deleted
    exact ⟨lastOk, later.trans mode⟩

theorem hashDeleteAll_clears (run : Running) (ok : TableOk w data) :
    ∃ emptied, hashDeleteAll w run data (hashKeys data) = .done (emptied, run) ∧
      emptied.rows = [] := by
  rw [hashKeys, hashPairsSnapshot_rows lawful, map_map]
  induction listed : data.rows generalizing data with
  | nil => exact ⟨data, rfl, listed⟩
  | cons row rest ih =>
    obtain ⟨k, projects, equal⟩ := ok.agrees row (by rw [listed]; exact mem_cons_self)
    obtain ⟨probe, found, rfl⟩ := probeOf_projects eql projects
    have left : (data.shiftRemove probe).1.rows = rest := by
      rw [(RHashData.shiftRemove_rows lawful data probe).1, listed]
      exact congrArg Prod.fst (shiftRemove_split [] row.2 rest (by simp [Absent]) equal)
    obtain ⟨emptied, deleted, empty⟩ := ih (shiftRemove_tableOk lawful ok probe).1 left
    refine ⟨emptied, ?_, empty⟩
    rw [map_cons, hashDeleteAll, Outcome.bind_eq_done]
    refine ⟨(_, run), ?_, deleted⟩
    have removed : hashDelete w data row.2.1 = pure (data.shiftRemove probe).1 := by
      simp [hashDelete, found]
    exact (congrArg (·.run run) removed).trans
      (congrArg (fun after => Outcome.done (_, after)) run.park_false)

theorem hashReplace_tableOk {other : Option (RHashData im)} (ok : TableOk w data)
    (replaced : hashReplace w run data other = .done (data', run')) :
    TableOk w data' ∧ data'.compareByIdentity = data.compareByIdentity := by
  rw [hashReplace, Outcome.bind_eq_done] at replaced
  obtain ⟨⟨emptied, running⟩, deleted, replaced⟩ := replaced
  have start := hashDeleteAll_tableOk lawful ok deleted
  refine hashSetAll_induction
    (fun next => TableOk w next ∧ next.compareByIdentity = data.compareByIdentity)
    (fun run data key value data' run' _ kept set => ?_) start replaced
  obtain ⟨nextOk, mode⟩ := hashSetUnder_tableOk lawful kept.1 set
  exact ⟨nextOk, mode.trans kept.2⟩

/-- Reinserting pairs by identity builds a hash that meets the invariant in that mode. -/
theorem reinsertByIdentity_tableOk (quiet : ∀ pair ∈ pairs, ∃ k, hashKeyIn w pair.1 true = pure k)
    (mode : data.compareByIdentity = true) (ok : TableOk w data)
    (inserted : reinsertByIdentity w run data pairs = .done (data', run')) : TableOk w data' := by
  induction pairs generalizing run data with
  | nil => cases inserted; exact ok
  | cons pair rest ih =>
    obtain ⟨key, value⟩ := pair
    obtain ⟨k, projects⟩ := quiet (key, value) mem_cons_self
    rw [reinsertByIdentity, Outcome.bind_eq_done] at inserted
    obtain ⟨⟨found, running⟩, first, inserted⟩ := inserted
    simp only [projects] at first
    obtain ⟨rfl, -⟩ := first
    have later : ∀ pair ∈ rest, ∃ k, hashKeyIn w pair.1 true = pure k :=
      fun pair mem => quiet pair (mem_cons_of_mem _ mem)
    have kept := insert_compareByIdentity data k (key, value)
    refine ih later (kept.trans mode) ⟨insert_sound lawful ok.sound _ _, ?_⟩
      inserted
    intro row mem
    rw [(insert_rows lawful ok.sound k (key, value)).1] at mem
    rw [kept]
    rcases mem_insert data.rows mem with earlier | ⟨same, equal⟩
    · exact ok.agrees row earlier
    · exact ⟨k, by rw [same, mode]; exact projects, equal⟩

theorem hashEnableCompareByIdentity_tableOk (ok : TableOk w data)
    (enabled : hashEnableCompareByIdentity w run data = .done (data', run')) :
    TableOk w data' := by
  cases mode : data.compareByIdentity with
  | true =>
    simp only [hashEnableCompareByIdentity, mode] at enabled
    cases enabled
    exact ok
  | false =>
    simp only [hashEnableCompareByIdentity, mode] at enabled
    refine reinsertByIdentity_tableOk lawful ?_ ?_ ?_ enabled
    · intro pair mem
      rw [hashPairsSnapshot_rows lawful] at mem
      obtain ⟨row, there, rfl⟩ := mem_map.mp mem
      have agrees := ok.agrees row there
      rw [mode] at agrees
      exact agrees.identity
    · cases data <;> rfl
    · refine ⟨clear_sound lawful _, fun row mem => ?_⟩
      rw [clear_rows lawful] at mem
      simp at mem

end

end Tables

end Zeo.Value
