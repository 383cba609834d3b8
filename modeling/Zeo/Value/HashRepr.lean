import Mathlib.Algebra.Order.Ring.Int
import Zeo.Lib.AssocList

/-!
# The two storages behind a Hash

A Hash keeps at most `smallHashMax` rows in a flat list that it scans, and promotes itself to an
ordered hash table at the next new key, for good. The table is the `indexmap` crate's: `IndexMap`
lists the operations the storage calls and `IndexMap.Lawful` states what the crate documents about
them. No caller can tell the two storages apart: over every sequence of operations the answers and
the order of iteration are those of one plain association list.
-/

namespace Zeo.Value

open Zeo.Lib List AssocList List.Pairwise
open AssocList (absent_or_split insert_absent shiftRemove_split shiftRemove_absent insert_distinct)

/-- The operations of the ordered table that the hash storage calls. -/
structure IndexMap (K V : Type) [BEq K] where
  Table : Type
  fromIter : List (K × V) → Table
  insert : Table → K → V → Table × Option V
  get : Table → Probe K → Option V
  containsKey : Table → Probe K → Bool
  getIndexOf : Table → Probe K → Option Nat
  /-- Lend the value at a position to a writer, and answer the entry lent. -/
  getIndexMut : Table → Nat → (V → V) → Table × Option (K × V)
  shiftRemove : Table → Probe K → Table × Option V
  clear : Table → Table
  len : Table → Nat
  values : Table → List V
  iter : Table → List (K × V)

structure IndexMap.Lawful {K V : Type} [BEq K] (im : IndexMap K V) : Prop where
  distinct : ∀ table, AssocList.Distinct (im.iter table)
  fromIter_iter : ∀ rows, AssocList.Distinct rows → im.iter (im.fromIter rows) = rows
  /-- If an equivalent key exists, it keeps its place and its stored form, its value is
  replaced and the older value is answered. -/
  insert_present : ∀ table before stored old after key value,
    im.iter table = before ++ (stored, old) :: after → (stored == key) = true →
      im.iter (im.insert table key value).1 = before ++ (stored, value) :: after ∧
        (im.insert table key value).2 = some old
  /-- If no equivalent key exists, the entry goes last and nothing is answered. -/
  insert_absent : ∀ table key value, AssocList.Absent (im.iter table) key →
    im.iter (im.insert table key value).1 = im.iter table ++ [(key, value)] ∧
      (im.insert table key value).2 = none
  get_present : ∀ table before stored old after (probe : Probe K),
    im.iter table = before ++ (stored, old) :: after → (stored == probe.key) = true →
      im.get table probe = some old
  get_absent : ∀ table (probe : Probe K), AssocList.Absent (im.iter table) probe.key →
    im.get table probe = none
  containsKey_get : ∀ table probe, im.containsKey table probe = (im.get table probe).isSome
  getIndexOf_present : ∀ table before stored old after (probe : Probe K),
    im.iter table = before ++ (stored, old) :: after → (stored == probe.key) = true →
      im.getIndexOf table probe = some before.length
  getIndexOf_absent : ∀ table (probe : Probe K), AssocList.Absent (im.iter table) probe.key →
    im.getIndexOf table probe = none
  getIndexMut_iter : ∀ table index write,
    im.iter (im.getIndexMut table index write).1 =
        AssocList.modifyAt (im.iter table) index write ∧
      (im.getIndexMut table index write).2 = (im.iter table)[index]?
  shiftRemove_present : ∀ table before stored old after (probe : Probe K),
    im.iter table = before ++ (stored, old) :: after → (stored == probe.key) = true →
      im.iter (im.shiftRemove table probe).1 = before ++ after ∧
        (im.shiftRemove table probe).2 = some old
  shiftRemove_absent : ∀ table (probe : Probe K), AssocList.Absent (im.iter table) probe.key →
    im.iter (im.shiftRemove table probe).1 = im.iter table ∧ (im.shiftRemove table probe).2 = none
  clear_iter : ∀ table, im.iter (im.clear table) = []
  len_iter : ∀ table, im.len table = (im.iter table).length
  values_iter : ∀ table, im.values table = (im.iter table).map (·.2)

/-- `SMALL_HASH_MAX`: the flat storage never holds more rows than this. -/
def smallHashMax : Nat := 8

/-- `HashRepr`: a flat list of rows, or the ordered table. -/
inductive HashRepr {K V : Type} [BEq K] (im : IndexMap K V) where
  | small (rows : List (K × V))
  | big (table : im.Table)

/-- `RHashData`: the storage beside the per-instance default and the flags of a Hash. Keys are
projected keys; a value is the pair of the original key and the stored value. -/
structure RHashData {K R : Type} [BEq K] (im : IndexMap K (R × R)) where
  repr : HashRepr im
  default : R
  defaultProc : Option R
  compareByIdentity : Bool
  iterating : Nat
  /-- Whether the caller wrote keywords to build this hash. -/
  kwMarked : Bool

/-- `HashPairsIter`: a walk over either storage, holding the rows not yet visited. -/
inductive HashPairsIter (K V : Type) where
  | small (rows : List (K × V))
  | big (rows : List (K × V))

/-- `HashValuesIter`: the same walk, over the values alone. The flat rows are walked whole and
their keys dropped, the table walks its values. -/
inductive HashValuesIter (K V : Type) where
  | small (rows : List (K × V))
  | big (values : List V)

inductive End where
  /-- `next`. -/
  | front
  /-- `next_back`. -/
  | back

def takeEnd {α : Type} (items : List α) : End → Option α × List α
  | .front => (items.head?, items.tail)
  | .back => (items.getLast?, items.dropLast)

def takeEnds {α : Type} : List α → List End → List (Option α)
  | _, [] => []
  | items, first :: rest => (takeEnd items first).1 :: takeEnds (takeEnd items first).2 rest

variable {K V : Type}

/-- `HashPairsIter::next` and `next_back`. -/
def HashPairsIter.take : HashPairsIter K V → End → Option (K × V) × HashPairsIter K V
  | .small rows, side =>
    ((takeEnd rows side).1.map fun (k, v) => (k, v), .small (takeEnd rows side).2)
  | .big rows, side => ((takeEnd rows side).1, .big (takeEnd rows side).2)

/-- `HashValuesIter::next` and `next_back`. -/
def HashValuesIter.take : HashValuesIter K V → End → Option V × HashValuesIter K V
  | .small rows, side => ((takeEnd rows side).1.map fun (_, v) => v, .small (takeEnd rows side).2)
  | .big values, side => ((takeEnd values side).1, .big (takeEnd values side).2)

def HashPairsIter.takes : HashPairsIter K V → List End → List (Option (K × V))
  | _, [] => []
  | walk, first :: rest => (walk.take first).1 :: (walk.take first).2.takes rest

def HashValuesIter.takes : HashValuesIter K V → List End → List (Option V)
  | _, [] => []
  | walk, first :: rest => (walk.take first).1 :: (walk.take first).2.takes rest

namespace RHashData

variable {K R : Type} [BEq K] {im : IndexMap K (R × R)}

/-- `RHashData::new`: empty and flat. -/
def new (nil : R) : RHashData im where
  repr := .small []
  default := nil
  defaultProc := none
  compareByIdentity := false
  iterating := 0
  kwMarked := false

/-- `RHashData::from_rows`: the storage is chosen by the number of rows. -/
def fromRows (nil : R) (rows : List (K × (R × R))) : RHashData im :=
  let data : RHashData im := new nil
  { data with
    repr := if rows.length ≤ smallHashMax then .small rows else .big (im.fromIter rows) }

/-- The scan of `insert` over the flat rows: rewrite the value of the first equal key. -/
def replaceFirst : List (K × (R × R)) → K → R × R → Option (List (K × (R × R)) × (R × R))
  | [], _, _ => none
  | (stored, slot) :: rest, key, value =>
    if stored == key then some ((stored, value) :: rest, slot)
    else (replaceFirst rest key value).map fun (rows, old) => ((stored, slot) :: rows, old)

variable (data : RHashData im)

/-- `RHashData::insert`: a flat storage with no equal key and no room promotes first. -/
def insert (key : K) (value : R × R) : RHashData im × Option (R × R) :=
  match data.repr with
  | .small rows =>
    match replaceFirst rows key value with
    | some (rows, old) => ({ data with repr := .small rows }, some old)
    | none =>
      if rows.length < smallHashMax then
        ({ data with repr := .small (rows ++ [(key, value)]) }, none)
      else
        let inserted := im.insert (im.fromIter rows) key value
        ({ data with repr := .big inserted.1 }, inserted.2)
  | .big table =>
    let inserted := im.insert table key value
    ({ data with repr := .big inserted.1 }, inserted.2)

variable (probe : Probe K)

/-- `RHashData::get`. -/
def get : Option (R × R) :=
  match data.repr with
  | .small rows => (rows.find? fun row => probe.equivalent row.1).map (·.2)
  | .big table => im.get table probe

/-- `RHashData::contains_key`. -/
def containsKey : Bool :=
  match data.repr with
  | .small rows => rows.any fun row => probe.equivalent row.1
  | .big table => im.containsKey table probe

/-- `RHashData::get_index_of`. -/
def getIndexOf : Option Nat :=
  match data.repr with
  | .small rows => rows.findIdx? fun row => probe.equivalent row.1
  | .big table => im.getIndexOf table probe

/-- `RHashData::get_index_mut`: the entry at an index, lent to a writer of its value. -/
def getIndexMut (index : Nat) (write : R × R → R × R) :
    RHashData im × Option (K × (R × R)) :=
  match data.repr with
  | .small rows =>
    ({ data with repr := .small (rows.modify index fun row => (row.1, write row.2)) }, rows[index]?)
  | .big table =>
    let lent := im.getIndexMut table index write
    ({ data with repr := .big lent.1 }, lent.2)

/-- `RHashData::shift_remove`. -/
def shiftRemove : RHashData im × Option (R × R) :=
  match data.repr with
  | .small rows =>
    match rows.findIdx? fun row => probe.equivalent row.1 with
    | none => (data, none)
    | some index => ({ data with repr := .small (rows.eraseIdx index) }, rows[index]?.map (·.2))
  | .big table =>
    let removed := im.shiftRemove table probe
    ({ data with repr := .big removed.1 }, removed.2)

/-- `RHashData::len`. -/
def len : Nat :=
  match data.repr with
  | .small rows => rows.length
  | .big table => im.len table

/-- `RHashData::clear`: the storage stays what it was. -/
def clear : RHashData im :=
  match data.repr with
  | .small _ => { data with repr := .small [] }
  | .big table => { data with repr := .big (im.clear table) }

/-- `RHashData::values`. -/
def values : HashValuesIter K (R × R) :=
  match data.repr with
  | .small rows => .small rows
  | .big table => .big (im.values table)

/-- `RHashData::iter`. -/
def iter : HashPairsIter K (R × R) :=
  match data.repr with
  | .small rows => .small rows
  | .big table => .big (im.iter table)

def rows : List (K × (R × R)) :=
  match data.repr with
  | .small rows => rows
  | .big table => im.iter table

def WithinSmall : Prop :=
  ∀ rows, data.repr = .small rows → rows.length ≤ smallHashMax

end RHashData

/-! ## Runs

One operation of the storage, its answer, and the same operation on a plain association
list. -/

inductive HashOp (K V : Type) [BEq K] where
  | insert (key : K) (value : V)
  | get (probe : Probe K)
  | containsKey (probe : Probe K)
  | getIndexOf (probe : Probe K)
  | getIndexMut (index : Nat) (write : V → V)
  | shiftRemove (probe : Probe K)
  | clear
  | len
  | iter (ends : List End)
  | values (ends : List End)

inductive HashAnswer (K V : Type) where
  | value (found : Option V)
  | present (found : Bool)
  | index (found : Option Nat)
  | row (found : Option (K × V))
  | unit
  | count (rows : Nat)
  | rows (taken : List (Option (K × V)))
  | values (taken : List (Option V))

def RHashData.step {K R : Type} [BEq K] {im : IndexMap K (R × R)} (data : RHashData im) :
    HashOp K (R × R) → RHashData im × HashAnswer K (R × R)
  | .insert key value => ((data.insert key value).1, .value (data.insert key value).2)
  | .get probe => (data, .value (data.get probe))
  | .containsKey probe => (data, .present (data.containsKey probe))
  | .getIndexOf probe => (data, .index (data.getIndexOf probe))
  | .getIndexMut index write =>
    ((data.getIndexMut index write).1, .row (data.getIndexMut index write).2)
  | .shiftRemove probe => ((data.shiftRemove probe).1, .value (data.shiftRemove probe).2)
  | .clear => (data.clear, .unit)
  | .len => (data, .count data.len)
  | .iter ends => (data, .rows (data.iter.takes ends))
  | .values ends => (data, .values (data.values.takes ends))

def RHashData.run {K R : Type} [BEq K] {im : IndexMap K (R × R)} :
    RHashData im → List (HashOp K (R × R)) → RHashData im × List (HashAnswer K (R × R))
  | data, [] => (data, [])
  | data, op :: ops =>
    (((data.step op).1.run ops).1, (data.step op).2 :: ((data.step op).1.run ops).2)

def specStep [BEq K] (rows : List (K × V)) :
    HashOp K V → List (K × V) × HashAnswer K V
  | .insert key value =>
    ((AssocList.insert rows key value).1, .value (AssocList.insert rows key value).2)
  | .get probe => (rows, .value (AssocList.get rows probe))
  | .containsKey probe => (rows, .present (AssocList.containsKey rows probe))
  | .getIndexOf probe => (rows, .index (AssocList.getIndexOf rows probe))
  | .getIndexMut index write => (AssocList.modifyAt rows index write, .row rows[index]?)
  | .shiftRemove probe =>
    ((AssocList.shiftRemove rows probe).1, .value (AssocList.shiftRemove rows probe).2)
  | .clear => ([], .unit)
  | .len => (rows, .count rows.length)
  | .iter ends => (rows, .rows (takeEnds rows ends))
  | .values ends => (rows, .values (takeEnds (rows.map (·.2)) ends))

def specRun [BEq K] :
    List (K × V) → List (HashOp K V) → List (K × V) × List (HashAnswer K V)
  | rows, [] => (rows, [])
  | rows, op :: ops =>
    ((specRun (specStep rows op).1 ops).1, (specStep rows op).2 :: (specRun (specStep rows op).1 ops).2)

theorem takeEnd_map {α β : Type} (f : α → β) (items : List α) (side : End) :
    takeEnd (items.map f) side = ((takeEnd items side).1.map f, (takeEnd items side).2.map f) := by
  cases side with
  | front | back => simp [takeEnd]

theorem HashPairsIter.takes_eq (walk : HashPairsIter K V) (ends : List End) :
    walk.takes ends =
      takeEnds (match walk with | .small rows => rows | .big rows => rows) ends := by
  induction ends generalizing walk with
  | nil => cases walk <;> rfl
  | cons side ends ih =>
    cases walk with
    | small rows =>
      simp only [takes, take, takeEnds, ih]
      cases (takeEnd rows side).1 <;> rfl
    | big rows => simp only [takes, take, takeEnds, ih]

theorem HashValuesIter.takes_eq (walk : HashValuesIter K V) (ends : List End) :
    walk.takes ends =
      takeEnds (match walk with | .small rows => rows.map (·.2) | .big values => values) ends := by
  induction ends generalizing walk with
  | nil => cases walk <;> rfl
  | cons side ends ih =>
    cases walk with
    | small rows => simp only [takes, take, takeEnds, ih, takeEnd_map]
    | big values => simp only [takes, take, takeEnds, ih]

namespace RHashData

variable {K R : Type} [BEq K] {im : IndexMap K (R × R)}

/-- A hash is one of the two storages beside its other fields. -/
@[cases_eliminator]
theorem byRepr {motive : RHashData im → Prop}
    (small : ∀ rows default proc identity iterating marked,
      motive ⟨.small rows, default, proc, identity, iterating, marked⟩)
    (big : ∀ table default proc identity iterating marked,
      motive ⟨.big table, default, proc, identity, iterating, marked⟩)
    (data : RHashData im) : motive data := by
  obtain ⟨repr, default, proc, identity, iterating, marked⟩ := data
  cases repr with
  | small rows => exact small rows default proc identity iterating marked
  | big table => exact big table default proc identity iterating marked

/-- The scan answers as storing does when there is a row to rewrite. -/
theorem replaceFirst_eq (rows : List (K × (R × R))) (key : K) (value : R × R) :
    replaceFirst rows key value =
      (AssocList.insert rows key value).2.map fun old =>
        ((AssocList.insert rows key value).1, old) := by
  induction rows with
  | nil => rfl
  | cons row rest ih =>
    cases same : row.1 == key with
    | true => simp [replaceFirst, AssocList.insert, same]
    | false =>
      simp only [replaceFirst, AssocList.insert, same, ih, Option.map_map]
      rfl

/-- The invariant of the storage: distinct keys, and a flat storage within its bound. -/
structure Sound (data : RHashData im) : Prop where
  distinct : AssocList.Distinct data.rows
  bounded : data.WithinSmall

theorem new_sound (nil : R) : (new nil : RHashData im).Sound :=
  ⟨List.Pairwise.nil, fun rows same => by cases same; exact Nat.zero_le _⟩

variable {data : RHashData im}

/-- `insert` is the association list's, on either storage and across the promotion. -/
theorem insert_rows (lawful : im.Lawful) (sound : data.Sound) (key : K)
    (value : R × R) :
    (data.insert key value).1.rows = (AssocList.insert data.rows key value).1 ∧
      (data.insert key value).2 = (AssocList.insert data.rows key value).2 := by
  cases data with
  | small rows =>
    have scan := replaceFirst_eq rows key value
    rcases absent_or_split rows key with
      absent | ⟨before, stored, old, after, rfl, absent, equal⟩
    · have appended := insert_absent rows key value absent
      by_cases room : rows.length < smallHashMax
      · simp [insert, RHashData.rows, scan, room, appended]
      · -- The promotion collects the rows in order, then stores the ninth.
        have collected := lawful.fromIter_iter rows sound.distinct
        have stored := lawful.insert_absent (im.fromIter rows) key value
          (by rw [collected]; exact absent)
        rw [collected] at stored
        simp [insert, RHashData.rows, scan, room, stored, appended]
    · simp [insert, RHashData.rows, scan,
        insert_split before old after value absent equal]
  | big table =>
    rcases absent_or_split (im.iter table) key with
      absent | ⟨before, stored, old, after, split, absent, equal⟩
    · have spec := lawful.insert_absent table key value absent
      simp [insert, RHashData.rows, spec, insert_absent _ key value absent]
    · have spec := lawful.insert_present table before stored old after key value split equal
      simp [insert, RHashData.rows, spec, split,
        insert_split before old after value absent equal]

theorem insert_sound (lawful : im.Lawful) (sound : data.Sound) (key : K)
    (value : R × R) : (data.insert key value).1.Sound := by
  constructor
  · rw [(insert_rows lawful sound key value).1]
    exact insert_distinct data.rows key value sound.distinct
  · intro rows same
    cases data with
    | big table => simp [insert] at same
    | small flat =>
      have bounded : flat.length ≤ smallHashMax := sound.bounded flat rfl
      have scan := replaceFirst_eq flat key value
      rcases absent_or_split flat key with
        absent | ⟨before, stored, old, after, rfl, absent, equal⟩
      · rw [insert_absent flat key value absent, Option.map_none] at scan
        by_cases room : flat.length < smallHashMax
        · simp only [insert, scan, room, if_true, HashRepr.small.injEq] at same
          rw [← same, length_append]
          exact room
        · simp [insert, scan, room] at same
      · rw [insert_split before old after value absent equal, Option.map_some] at scan
        simp only [insert, scan, HashRepr.small.injEq] at same
        rw [← same]
        simpa using bounded

variable [EquivBEq K]

section

variable (lawful : im.Lawful) (data : RHashData im) (probe : Probe K)

include lawful

theorem get_rows :
    data.get probe = AssocList.get data.rows probe := by
  cases data with
  | small rows => rfl
  | big table =>
    change im.get table probe = AssocList.get (im.iter table) probe
    rcases absent_or_split (im.iter table) probe.key with
      absent | ⟨before, stored, old, after, split, absent, equal⟩
    · rw [lawful.get_absent table probe absent, get_absent _ probe absent]
    · rw [lawful.get_present table before stored old after probe split equal, split,
        get_split before old after absent equal]

theorem containsKey_rows :
    data.containsKey probe = AssocList.containsKey data.rows probe := by
  rw [containsKey_eq, ← get_rows lawful data probe]
  cases data with
  | small rows => exact containsKey_eq rows probe
  | big table => exact lawful.containsKey_get table probe

theorem getIndexOf_rows :
    data.getIndexOf probe = AssocList.getIndexOf data.rows probe := by
  cases data with
  | small rows => rfl
  | big table =>
    change im.getIndexOf table probe = AssocList.getIndexOf (im.iter table) probe
    rcases absent_or_split (im.iter table) probe.key with
      absent | ⟨before, stored, old, after, split, absent, equal⟩
    · rw [lawful.getIndexOf_absent table probe absent, getIndexOf_absent _ probe absent]
    · rw [lawful.getIndexOf_present table before stored old after probe split equal, split,
        getIndexOf_split before old after absent equal]

theorem shiftRemove_rows :
    (data.shiftRemove probe).1.rows = (AssocList.shiftRemove data.rows probe).1 ∧
      (data.shiftRemove probe).2 = (AssocList.shiftRemove data.rows probe).2 := by
  cases data with
  | small rows =>
    rcases absent_or_split rows probe.key with
      absent | ⟨before, stored, old, after, rfl, absent, equal⟩
    · have position := getIndexOf_absent rows probe absent
      rw [AssocList.getIndexOf] at position
      simp [shiftRemove, RHashData.rows, position, shiftRemove_absent rows probe absent]
    · have position := getIndexOf_split before old after absent equal
      rw [AssocList.getIndexOf] at position
      simp [shiftRemove, RHashData.rows, position, eraseIdx_append_of_length_le,
        shiftRemove_split before old after absent equal]
  | big table =>
    rcases absent_or_split (im.iter table) probe.key with
      absent | ⟨before, stored, old, after, split, absent, equal⟩
    · have spec := lawful.shiftRemove_absent table probe absent
      simp [shiftRemove, RHashData.rows, spec, shiftRemove_absent _ probe absent]
    · have spec := lawful.shiftRemove_present table before stored old after probe split equal
      simp [shiftRemove, RHashData.rows, spec, split,
        shiftRemove_split before old after absent equal]

end

theorem shiftRemove_sound (lawful : im.Lawful) (sound : data.Sound)
    (probe : Probe K) : (data.shiftRemove probe).1.Sound := by
  constructor
  · rw [(shiftRemove_rows lawful data probe).1]
    exact AssocList.shiftRemove_distinct data.rows probe sound.distinct
  · intro rows same
    cases data with
    | big table => simp [shiftRemove] at same
    | small flat =>
      have bounded : flat.length ≤ smallHashMax := sound.bounded flat rfl
      cases position : flat.findIdx? (fun row => probe.equivalent row.1) with
      | none =>
        simp only [shiftRemove, position, HashRepr.small.injEq] at same
        rw [← same]
        exact bounded
      | some index =>
        simp only [shiftRemove, position, HashRepr.small.injEq] at same
        rw [← same]
        exact Nat.le_trans (length_eraseIdx_le flat index) bounded

omit [EquivBEq K] in
theorem getIndexMut_rows (lawful : im.Lawful) (data : RHashData im) (index : Nat)
    (write : R × R → R × R) :
    (data.getIndexMut index write).1.rows = modifyAt data.rows index write ∧
      (data.getIndexMut index write).2 = data.rows[index]? := by
  cases data with
  | small rows => exact ⟨rfl, rfl⟩
  | big table => exact lawful.getIndexMut_iter table index write

omit [EquivBEq K] in
theorem getIndexMut_sound (lawful : im.Lawful) (sound : data.Sound)
    (index : Nat) (write : R × R → R × R) : (data.getIndexMut index write).1.Sound := by
  constructor
  · rw [(getIndexMut_rows lawful data index write).1]
    exact modifyAt_distinct data.rows index write sound.distinct
  · intro rows same
    cases data with
    | big table => simp [getIndexMut] at same
    | small flat =>
      have bounded : flat.length ≤ smallHashMax := sound.bounded flat rfl
      simp only [getIndexMut, HashRepr.small.injEq] at same
      rw [← same]
      simpa using bounded

omit [EquivBEq K] in
theorem clear_rows (lawful : im.Lawful) (data : RHashData im) : data.clear.rows = [] := by
  cases data with
  | small rows => rfl
  | big table => exact lawful.clear_iter table

omit [EquivBEq K] in
theorem clear_sound (lawful : im.Lawful) (data : RHashData im) : data.clear.Sound := by
  constructor
  · rw [clear_rows lawful data]
    exact nil
  · intro rows same
    cases data with
    | big table => simp [clear] at same
    | small flat =>
      simp only [clear, HashRepr.small.injEq] at same
      rw [← same]
      exact Nat.zero_le _

omit [EquivBEq K] in
theorem len_rows (lawful : im.Lawful) (data : RHashData im) : data.len = data.rows.length := by
  cases data with
  | small rows => rfl
  | big table => exact lawful.len_iter table

omit [EquivBEq K] in
theorem iter_takes (data : RHashData im) (ends : List End) :
    data.iter.takes ends = takeEnds data.rows ends := by
  cases data <;> exact HashPairsIter.takes_eq _ ends

omit [EquivBEq K] in
theorem values_takes (lawful : im.Lawful) (data : RHashData im) (ends : List End) :
    data.values.takes ends = takeEnds (data.rows.map (·.2)) ends := by
  cases data with
  | small rows => exact HashValuesIter.takes_eq _ ends
  | big table =>
    change (HashValuesIter.big (im.values table) : HashValuesIter K (R × R)).takes ends = _
    rw [HashValuesIter.takes_eq, lawful.values_iter]
    rfl

theorem step_refines (lawful : im.Lawful) (sound : data.Sound)
    (op : HashOp K (R × R)) :
    (data.step op).1.rows = (specStep data.rows op).1 ∧
      (data.step op).2 = (specStep data.rows op).2 ∧ (data.step op).1.Sound := by
  cases op with
  | insert key value =>
    have spec := insert_rows lawful sound key value
    exact ⟨spec.1, congrArg HashAnswer.value spec.2, insert_sound lawful sound key value⟩
  | get probe => exact ⟨rfl, congrArg HashAnswer.value (get_rows lawful data probe), sound⟩
  | containsKey probe =>
    exact ⟨rfl, congrArg HashAnswer.present (containsKey_rows lawful data probe), sound⟩
  | getIndexOf probe =>
    exact ⟨rfl, congrArg HashAnswer.index (getIndexOf_rows lawful data probe), sound⟩
  | getIndexMut index write =>
    have spec := getIndexMut_rows lawful data index write
    exact ⟨spec.1, congrArg HashAnswer.row spec.2, getIndexMut_sound lawful sound index write⟩
  | shiftRemove probe =>
    have spec := shiftRemove_rows lawful data probe
    exact ⟨spec.1, congrArg HashAnswer.value spec.2, shiftRemove_sound lawful sound probe⟩
  | clear => exact ⟨clear_rows lawful data, rfl, clear_sound lawful data⟩
  | len => exact ⟨rfl, congrArg HashAnswer.count (len_rows lawful data), sound⟩
  | iter ends => exact ⟨rfl, congrArg HashAnswer.rows (iter_takes data ends), sound⟩
  | values ends => exact ⟨rfl, congrArg HashAnswer.values (values_takes lawful data ends), sound⟩

theorem run_refines (lawful : im.Lawful) (ops : List (HashOp K (R × R)))
    (sound : data.Sound) :
    (data.run ops).1.rows = (specRun data.rows ops).1 ∧
      (data.run ops).2 = (specRun data.rows ops).2 ∧ (data.run ops).1.Sound := by
  induction ops generalizing data with
  | nil => exact ⟨rfl, rfl, sound⟩
  | cons op ops ih =>
    obtain ⟨rows, answer, next⟩ := step_refines lawful sound op
    obtain ⟨finalRows, answers, last⟩ := ih next
    rw [rows] at finalRows answers
    exact ⟨finalRows, by simp [run, specRun, answer, answers], last⟩

/-- Over every sequence of operations from an empty hash, the answers and the final rows are
those of a plain association list, and a flat storage stays within its bound. -/
theorem storage_refines_assocList (lawful : im.Lawful) (nil : R)
    (ops : List (HashOp K (R × R))) :
    ((new nil : RHashData im).run ops).2 = (specRun [] ops).2 ∧
      ((new nil : RHashData im).run ops).1.rows = (specRun [] ops).1 ∧
        ((new nil : RHashData im).run ops).1.WithinSmall := by
  obtain ⟨rows, answers, sound⟩ := run_refines lawful ops (new_sound nil)
  exact ⟨answers, rows, sound.bounded⟩

end RHashData

/-! ## An ordered table

Association lists with distinct keys are themselves such a table. -/

def listIndexMap (K V : Type) [BEq K] [EquivBEq K] : IndexMap K V where
  Table := { rows : List (K × V) // AssocList.Distinct rows }
  fromIter rows := rows.foldl
    (fun table row =>
      ⟨(AssocList.insert table.val row.1 row.2).1,
        insert_distinct table.val row.1 row.2 table.property⟩)
    ⟨[], nil⟩
  insert table key value :=
    (⟨(AssocList.insert table.val key value).1,
      insert_distinct table.val key value table.property⟩,
      (AssocList.insert table.val key value).2)
  get table probe := AssocList.get table.val probe
  containsKey table probe := (AssocList.get table.val probe).isSome
  getIndexOf table probe := AssocList.getIndexOf table.val probe
  getIndexMut table index write :=
    (⟨AssocList.modifyAt table.val index write,
      AssocList.modifyAt_distinct table.val index write table.property⟩, table.val[index]?)
  shiftRemove table probe :=
    (⟨(AssocList.shiftRemove table.val probe).1,
      AssocList.shiftRemove_distinct table.val probe table.property⟩,
      (AssocList.shiftRemove table.val probe).2)
  clear _ := ⟨[], nil⟩
  len table := table.val.length
  values table := table.val.map (·.2)
  iter table := table.val

theorem absent_before [BEq K] [EquivBEq K] {table : (listIndexMap K V).Table}
    {before : List (K × V)} {stored : K} {old : V} {after : List (K × V)} {key : K}
    (split : table.val = before ++ (stored, old) :: after) (equal : (stored == key) = true) :
    AssocList.Absent before key := by
  have distinct := table.property
  rw [split] at distinct
  intro row mem
  rw [← BEq.congr_right equal]
  exact (pairwise_append.mp distinct).2.2 row mem (stored, old) mem_cons_self

theorem listIndexMap_fromIter [BEq K] [EquivBEq K] (rows : List (K × V))
    (table : (listIndexMap K V).Table) :
    (rows.foldl
      (fun (table : (listIndexMap K V).Table) row =>
        ((listIndexMap K V).insert table row.1 row.2).1) table).val =
      rows.foldl (fun stored row => (insert stored row.1 row.2).1) table.val := by
  induction rows generalizing table with
  | nil => rfl
  | cons row rest ih => exact ih _

theorem listIndexMap_lawful (K V : Type) [BEq K] [EquivBEq K] : (listIndexMap K V).Lawful where
  distinct table := table.property
  fromIter_iter rows distinct := by
    have folded := listIndexMap_fromIter rows ⟨[], nil⟩
    have appended := foldl_insert rows [] distinct
    exact folded.trans appended
  insert_present table before stored old after key value split equal := by
    have absent := absent_before split equal
    have spec := insert_split before old after value absent equal
    rw [← split] at spec
    exact ⟨congrArg Prod.fst spec, congrArg Prod.snd spec⟩
  insert_absent table key value absent := by
    have spec := insert_absent table.val key value absent
    exact ⟨congrArg Prod.fst spec, congrArg Prod.snd spec⟩
  get_present table before stored old after probe split equal := by
    have absent := absent_before split equal
    change table.val = _ at split
    change get table.val probe = _
    rw [split, get_split before old after absent equal]
  get_absent table probe absent := get_absent table.val probe absent
  containsKey_get _ _ := rfl
  getIndexOf_present table before stored old after probe split equal := by
    have absent := absent_before split equal
    change table.val = _ at split
    change getIndexOf table.val probe = _
    rw [split, getIndexOf_split before old after absent equal]
  getIndexOf_absent table probe absent := getIndexOf_absent table.val probe absent
  getIndexMut_iter _ _ _ := ⟨rfl, rfl⟩
  shiftRemove_present table before stored old after probe split equal := by
    have absent := absent_before split equal
    have spec := shiftRemove_split before old after absent equal
    rw [← split] at spec
    exact ⟨congrArg Prod.fst spec, congrArg Prod.snd spec⟩
  shiftRemove_absent table probe absent := by
    have spec := shiftRemove_absent table.val probe absent
    exact ⟨congrArg Prod.fst spec, congrArg Prod.snd spec⟩
  clear_iter _ := rfl
  len_iter _ := rfl
  values_iter _ := rfl

/-- Nine stores and a removal cross the promotion and still read back as a list. -/
theorem storage_refines_assocList_nine :
    let ops : List (HashOp Nat (Nat × Nat)) :=
      (List.range 9).map (fun i => .insert i (i, i)) ++
        [.shiftRemove (.ofKey 3), .insert 4 (4, 9), .iter [.front, .back]]
    ((RHashData.new 0 : RHashData (listIndexMap Nat (Nat × Nat))).run ops).2 =
        (specRun [] ops).2 ∧
      ((RHashData.new 0 : RHashData (listIndexMap Nat (Nat × Nat))).run ops).1.rows =
        (specRun [] ops).1 ∧
      ((RHashData.new 0 : RHashData (listIndexMap Nat (Nat × Nat))).run ops).1.WithinSmall :=
  RHashData.storage_refines_assocList (listIndexMap_lawful Nat (Nat × Nat)) 0 _

end Zeo.Value
