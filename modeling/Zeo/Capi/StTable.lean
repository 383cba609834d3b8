import Mathlib.Data.List.Basic
import Mathlib.Tactic.Common

/-!
# `st_table`

The hash table that extensions use for their own bookkeeping. The rows are kept in insertion order
and a deletion leaves a hole, so that an index keeps its row; `index` lists, hash by hash, the
indices added under it, and entries of holes stay. The header's `num_entries` is a copy of `live`
that `sync` brings up to date.

The functions that index give none where the source panics. Each row carries a stamp that the source
does not have: it says which row an index stands for after the table was cleared or compacted.
-/

namespace Zeo.Capi.St

open List Option

/-- `StData`: a machine word that the caller interprets. -/
abbrev StData := BitVec 64

/-- `StIndex`: a hash. -/
abbrev StIndex := BitVec 64

def numHash (n : StData) : StIndex := (n >>> 3) ^^^ (n <<< 3)

/-- `bytes_hash`: FNV-1a. -/
def bytesHash (bytes : List UInt8) : StIndex :=
  bytes.foldl (fun h b => (h ^^^ BitVec.ofNat 64 b.toNat) * 0x100000001b3) 0xcbf29ce484222325

/-- `u8::to_ascii_lowercase`. -/
def toAsciiLowercase (b : UInt8) : UInt8 := if 65 ≤ b ∧ b ≤ 90 then b + 32 else b

/-- A caller's `hash` function, or the number hash without one. -/
def hashBy (hash : Option (StData → StIndex)) (key : StData) : StIndex :=
  match hash with
  | some f => f key
  | none => numHash key

/-- A caller's `compare` function, for which 0 is equal, or equality of words without one. -/
def sameBy (compare : Option (StData → StData → Int)) (a b : StData) : Bool :=
  match compare with
  | some f => f a b == 0
  | none => a == b

/-- `StHashType`, with what `st.h` asks of its functions: equal keys are an equivalence and hash
equally. -/
structure StHashType where
  compare : Option (StData → StData → Int)
  hash : Option (StData → StIndex)
  refl : ∀ a, sameBy compare a a = true
  symm : ∀ a b, sameBy compare a b = true → sameBy compare b a = true
  trans : ∀ a b c, sameBy compare a b = true → sameBy compare b c = true →
    sameBy compare a c = true
  respects : ∀ a b, sameBy compare a b = true → hashBy hash a = hashBy hash b

/-- `Kind`: which of the built-in key kinds a table has, or the caller's own. -/
inductive Kind where
  /-- The key is the number. -/
  | num
  /-- The key is a `const char *`. -/
  | str
  | strCase
  /-- The caller's own hash and compare. -/
  | custom (type : StHashType)

/-- The text a string key points to (`key_bytes`): the caller keeps it while the row lives. -/
abbrev Texts := StData → List UInt8

/-- `Store::hash`. -/
def Kind.hash (texts : Texts) : Kind → StData → StIndex
  | .num, key => numHash key
  | .str, key => bytesHash (texts key)
  | .strCase, key => bytesHash ((texts key).map toAsciiLowercase)
  | .custom type, key => hashBy type.hash key

/-- `Store::eq`. -/
def Kind.eq (texts : Texts) : Kind → StData → StData → Bool
  | .num, a, b => a == b
  | .str, a, b => texts a == texts b
  | .strCase, a, b => (texts a).map toAsciiLowercase == (texts b).map toAsciiLowercase
  | .custom type, a, b => sameBy type.compare a b

section Keys

variable {texts : Texts} {kind : Kind} {a b c : StData}

theorem Kind.eq_refl : kind.eq texts a a = true := by
  cases kind with
  | custom type => exact type.refl a
  | _ => exact beq_self_eq_true _

theorem Kind.eq_symm (equal : kind.eq texts a b = true) : kind.eq texts b a = true := by
  cases kind with
  | custom type => exact type.symm a b equal
  | _ => exact beq_iff_eq.mpr (beq_iff_eq.mp equal).symm

theorem Kind.eq_trans (left : kind.eq texts a b = true) (right : kind.eq texts b c = true) :
    kind.eq texts a c = true := by
  cases kind with
  | custom type => exact type.trans a b c left right
  | _ => exact beq_iff_eq.mpr ((beq_iff_eq.mp left).trans (beq_iff_eq.mp right))

theorem Kind.hash_eq (equal : kind.eq texts a b = true) :
    kind.hash texts a = kind.hash texts b := by
  cases kind with
  | num => exact congrArg numHash (beq_iff_eq.mp equal)
  | str | strCase => exact congrArg bytesHash (beq_iff_eq.mp equal)
  | custom type => exact type.respects a b equal

end Keys

structure Row where
  stamp : Nat
  key : StData
  val : StData
deriving DecidableEq

/-- A table: its `Store` and the header field kept in step with it. -/
structure Table where
  kind : Kind
  /-- The rows in insertion order, with the holes deletions leave. -/
  rows : List (Option Row)
  index : StIndex → List Nat
  live : Nat
  /-- The header's `num_entries`. -/
  numEntries : Nat
  minted : Nat

def newTable (kind : Kind) : Table := ⟨kind, [], fun _ => [], 0, 0, 0⟩

def Table.sync (t : Table) : Table := { t with numEntries := t.live }

variable (texts : Texts)

/-- The search of `find` through the indices of one hash. -/
def Table.findIn (t : Table) (key : StData) : List Nat → Option (Option Nat)
  | [] => some none
  | i :: is =>
    match t.rows[i]? with
    | none => none
    | some none => t.findIn key is
    | some (some row) => if t.kind.eq texts row.key key then some (some i) else t.findIn key is

/-- `Store::find`: the index of the live row with this key. -/
def Table.find (t : Table) (key : StData) : Option (Option Nat) :=
  t.findIn texts key (t.index (t.kind.hash texts key))

/-- Append a row, as `Store::add` does. -/
def Table.addRow (t : Table) (row : Row) : Table :=
  { t with
    rows := t.rows ++ [some row]
    index := fun h =>
      if h = t.kind.hash texts row.key then t.index h ++ [t.rows.length] else t.index h
    live := t.live + 1 }

/-- `Store::add`: a new row, whether or not the key is there. -/
def Table.add (t : Table) (key val : StData) : Table :=
  { t with minted := t.minted + 1 }.addRow texts ⟨t.minted, key, val⟩

/-- `rows[i] = Some((key, val))`: the row there is given these words, a hole becomes a row with the
stamp of the one the writer was shown. -/
def Table.write (t : Table) (i stamp : Nat) (key val : StData) : Option Table :=
  match t.rows[i]? with
  | none => none
  | some none => some { t with rows := t.rows.set i (some ⟨stamp, key, val⟩) }
  | some (some row) => some { t with rows := t.rows.set i (some ⟨row.stamp, key, val⟩) }

/-- `Store::insert`: a key that is there keeps its row and its original key. -/
def Table.insert (t : Table) (key val : StData) : Option Table := do
  match ← t.find texts key with
  | some i =>
    match t.rows[i]? with
    | some (some row) => t.write i row.stamp row.key val
    | _ => none
  | none => return t.add texts key val

/-- `Store::remove_at`. -/
def Table.removeAt (t : Table) (i : Nat) : Table :=
  match t.rows[i]? with
  | some (some _) => { t with rows := t.rows.set i none, live := t.live - 1 }
  | _ => t

/-- `Store::snapshot`: every live row with its index, in insertion order. -/
def Table.snapshot (t : Table) : List (Nat × Row) :=
  t.rows.zipIdx.filterMap fun entry => entry.1.map fun row => (entry.2, row)

/-- `rb_st_delete`. -/
def Table.delete (t : Table) (key : StData) : Option Table := do
  match ← t.find texts key with
  | some i => return (t.removeAt i).sync
  | none => return t.sync

/-- `rb_st_clear`. -/
def Table.clear (t : Table) : Table :=
  { t with rows := [], index := fun _ => [], live := 0 }.sync

/-- `rb_st_cleanup_safe`: the live rows are added anew. -/
def Table.cleanupSafe (t : Table) : Table :=
  ((t.rows.filterMap id).foldl (Table.addRow texts)
    { t with rows := [], index := fun _ => [], live := 0 }).sync

/-- `rb_st_copy`: the live rows added to a new table. -/
def Table.copy (t : Table) : Table :=
  (t.snapshot.foldl (fun (out : Table) entry => out.addRow texts entry.2)
    { newTable t.kind with minted := t.minted }).sync

def Table.At (t : Table) (i : Nat) (row : Row) : Prop := t.rows[i]? = some (some row)

/-- The shape of a store: the counter is the number of live rows, the indices are in range and list
every live row under its hash alone, and no two live rows have equal keys or one stamp. -/
structure Table.Shape (t : Table) : Prop where
  counted : t.live = t.rows.countP Option.isSome
  inRange : ∀ h, ∀ i ∈ t.index h, i < t.rows.length
  listed : ∀ i row h, t.At i row → (i ∈ t.index h ↔ h = t.kind.hash texts row.key)
  distinct : ∀ i j row other, t.At i row → t.At j other →
    t.kind.eq texts row.key other.key = true → i = j
  stamped : ∀ i j row other, t.At i row → t.At j other → row.stamp = other.stamp → i = j
  minted : ∀ i row, t.At i row → row.stamp < t.minted

def Table.Absent (t : Table) (key : StData) : Prop :=
  ∀ i row, t.At i row → t.kind.eq texts row.key key = false

/-- The words can be written at an index: a live row is there, the key has that row's hash, and no
other live row has it. -/
def Table.Writable (t : Table) (i : Nat) (key : StData) : Prop :=
  ∃ row, t.At i row ∧ t.kind.hash texts key = t.kind.hash texts row.key ∧
    ∀ j other, t.At j other → t.kind.eq texts other.key key = true → j = i

/-- What is promised of a table: the published count is the number of live rows, and every live row
is found by a lookup of its key. -/
structure Table.Sound (t : Table) : Prop where
  published : t.numEntries = t.rows.countP Option.isSome
  found : ∀ i row, t.At i row → t.find texts row.key = some (some i)

variable {texts} {t : Table}

open Table

theorem findIn_spec (key : StData) {is : List Nat} (inRange : ∀ i ∈ is, i < t.rows.length) :
    (∃ i row, t.findIn texts key is = some (some i) ∧ i ∈ is ∧ t.At i row ∧
        t.kind.eq texts row.key key = true) ∨
      (t.findIn texts key is = some none ∧
        ∀ i ∈ is, ∀ row, t.At i row → t.kind.eq texts row.key key = false) := by
  induction is with
  | nil => exact .inr ⟨rfl, fun _ none => absurd none not_mem_nil⟩
  | cons i is ih =>
    rcases ih fun j mem => inRange j (mem_cons_of_mem i mem) with
      ⟨j, row, found, mem, alive, equal⟩ | ⟨missing, others⟩
    all_goals
      unfold findIn
      rcases entry : t.rows[i]? with _ | _ | row
      · exact absurd (inRange i mem_cons_self)
          (Nat.not_lt.mpr (List.getElem?_eq_none_iff.mp entry))
    · exact .inl ⟨j, row, found, mem_cons_of_mem i mem, alive, equal⟩
    · by_cases same : t.kind.eq texts row.key key = true
      · exact .inl ⟨i, row, if_pos same, mem_cons_self, entry, same⟩
      · refine .inl ⟨j, _, (if_neg same).trans found, mem_cons_of_mem i mem, alive, equal⟩
    · refine .inr ⟨missing, fun j mem row alive => ?_⟩
      rcases mem_cons.mp mem with rfl | mem
      · rw [Table.At, entry] at alive
        exact absurd alive (by simp)
      · exact others j mem row alive
    · by_cases same : t.kind.eq texts row.key key = true
      · exact .inl ⟨i, row, if_pos same, mem_cons_self, entry, same⟩
      · refine .inr ⟨(if_neg same).trans missing, fun j mem other alive => ?_⟩
        rcases mem_cons.mp mem with rfl | mem
        · rw [Table.At, entry] at alive
          cases alive
          exact eq_false_of_ne_true same
        · exact others j mem other alive

/-- In a store of good shape a search answers the live row with the key, if there is one. -/
theorem Table.Shape.find_spec (shape : t.Shape texts) (key : StData) :
    (∃ i row, t.find texts key = some (some i) ∧ t.At i row ∧ t.kind.eq texts row.key key = true) ∨
      (t.find texts key = some none ∧ t.Absent texts key) := by
  rcases findIn_spec key (shape.inRange _) with
    ⟨i, row, found, -, alive, equal⟩ | ⟨missing, others⟩
  · exact .inl ⟨i, row, found, alive, equal⟩
  · refine .inr ⟨missing, fun i row alive => ?_⟩
    by_contra equal
    have same : t.kind.eq texts row.key key = true := eq_true_of_ne_false equal
    have listed := (shape.listed i row _ alive).mpr (Kind.hash_eq (Kind.eq_symm same))
    exact equal (others i listed row alive)

variable {i : Nat} {row : Row}

theorem Table.Shape.find_at (shape : t.Shape texts) (alive : t.At i row) :
    t.find texts row.key = some (some i) := by
  rcases shape.find_spec row.key with ⟨j, other, found, aliveThere, equal⟩ | ⟨-, absent⟩
  · rw [found, shape.distinct j i other row aliveThere alive equal]
  · exact absurd (absent i row alive) (by rw [Kind.eq_refl]; decide)

theorem Table.Shape.sound (shape : t.Shape texts) (published : t.numEntries = t.live) :
    t.Sound texts :=
  ⟨published.trans shape.counted, fun _ _ alive => shape.find_at alive⟩

theorem Table.find_congr {a b : StData} (equal : t.kind.eq texts a b = true) :
    t.find texts a = t.find texts b := by
  have same : ∀ row : Row, t.kind.eq texts row.key a = t.kind.eq texts row.key b := fun row => by
    rw [Bool.eq_iff_iff]
    exact ⟨fun left => Kind.eq_trans left equal,
      fun right => Kind.eq_trans right (Kind.eq_symm equal)⟩
  unfold find
  rw [Kind.hash_eq equal]
  generalize t.index _ = is
  induction is with
  | nil => rfl
  | cons i is ih => simp only [findIn, same, ih]

theorem Table.Sound.distinct (sound : t.Sound texts) {j : Nat} {other : Row} (alive : t.At i row)
    (aliveThere : t.At j other) (equal : t.kind.eq texts row.key other.key = true) : i = j := by
  have left := sound.found i row alive
  rw [find_congr equal, sound.found j other aliveThere] at left
  exact (some.inj (some.inj left)).symm

theorem Table.mem_of_findIn {key : StData} {is : List Nat}
    (found : t.findIn texts key is = some (some i)) : i ∈ is := by
  induction is with
  | nil => exact absurd found (by simp [findIn])
  | cons j is ih =>
    unfold findIn at found
    rcases entry : t.rows[j]? with _ | _ | row
    · rw [entry] at found
      exact absurd found (by simp)
    · rw [entry] at found
      exact mem_cons_of_mem j (ih found)
    · rw [entry] at found
      change (if t.kind.eq texts row.key key = true then some (some j) else _) = _ at found
      by_cases same : t.kind.eq texts row.key key = true
      · rw [if_pos same] at found
        rw [some.inj (some.inj found)]
        exact mem_cons_self
      · rw [if_neg same] at found
        exact mem_cons_of_mem j (ih found)

theorem Table.at_addRow {other : Row} :
    (t.addRow texts row).At i other ↔ t.At i other ∨ (i = t.rows.length ∧ other = row) := by
  change (t.rows ++ [some row])[i]? = _ ↔ t.rows[i]? = _ ∨ _
  rcases Nat.lt_trichotomy i t.rows.length with inside | rfl | outside
  · rw [List.getElem?_append_left inside]
    exact ⟨.inl, fun either => either.resolve_right fun last => Nat.ne_of_lt inside last.1⟩
  · simp [eq_comm]
  · rw [List.getElem?_eq_none (by simp; omega), List.getElem?_eq_none (Nat.le_of_lt outside)]
    simp [Nat.ne_of_gt outside]

theorem Table.mem_addRow {h : StIndex} :
    i ∈ (t.addRow texts row).index h ↔
      i ∈ t.index h ∨ (i = t.rows.length ∧ h = t.kind.hash texts row.key) := by
  change i ∈ (if _ then _ else _) ↔ _
  by_cases same : h = t.kind.hash texts row.key
  · simp [same]
  · simp [same]

/-- Rows that a relation tells apart, and one more that is told apart from them. -/
theorem apart_with {related : Row → Row → Prop} {At At' : Nat → Row → Prop} {new : Row}
    (symm : ∀ {a b}, related a b → related b a)
    (old : ∀ j k a b, At j a → At k b → related a b → j = k)
    (rows : ∀ {j a}, At' j a → (j = i ∧ a = new) ∨ At j a)
    (only : ∀ j a, At j a → related a new → j = i) :
    ∀ j k a b, At' j a → At' k b → related a b → j = k := by
  intro j k a b there here same
  rcases rows there with ⟨rfl, rfl⟩ | before
  · rcases rows here with ⟨rfl, rfl⟩ | beforeHere
    · rfl
    · exact (only k b beforeHere (symm same)).symm
  · rcases rows here with ⟨rfl, rfl⟩ | beforeHere
    · exact only j a before same
    · exact old j k a b before beforeHere same

theorem Table.Shape.addRow (shape : t.Shape texts) (absent : t.Absent texts row.key)
    (fresh : ∀ i other, t.At i other → other.stamp ≠ row.stamp) (given : row.stamp < t.minted) :
    (t.addRow texts row).Shape texts where
  counted := by
    change t.live + 1 = (t.rows ++ [some row]).countP isSome
    rw [shape.counted, countP_append]
    rfl
  inRange h i listed := by
    change i < (t.rows ++ [some row]).length
    rw [length_append]
    rcases mem_addRow.mp listed with before | ⟨rfl, -⟩
    · exact Nat.lt_succ_of_lt (shape.inRange h i before)
    · exact Nat.lt_succ_self _
  listed i other h alive := by
    rw [mem_addRow]
    rcases at_addRow.mp alive with before | ⟨rfl, rfl⟩
    · have inside : i < t.rows.length := (List.getElem?_eq_some_iff.mp before).1
      rw [shape.listed i other h before]
      exact ⟨fun either => either.resolve_right fun last => Nat.ne_of_lt inside last.1, .inl⟩
    · exact ⟨fun either => either.elim
        (fun listed => absurd (shape.inRange h _ listed) (Nat.lt_irrefl _)) And.right,
        fun same => .inr ⟨rfl, same⟩⟩
  distinct := by
    refine apart_with Kind.eq_symm shape.distinct (fun alive => (at_addRow.mp alive).symm)
      fun j other alive equal => ?_
    exact absurd ((absent j other alive).symm.trans equal) Bool.false_ne_true
  stamped := apart_with Eq.symm shape.stamped (fun alive => (at_addRow.mp alive).symm)
    fun j other alive equal => absurd equal (fresh j other alive)
  minted i other alive := by
    rcases at_addRow.mp alive with before | ⟨rfl, rfl⟩
    · exact shape.minted i other before
    · exact given

theorem Table.Shape.mint (shape : t.Shape texts) :
    { t with minted := t.minted + 1 : Table }.Shape texts :=
  ⟨shape.counted, shape.inRange, shape.listed, shape.distinct, shape.stamped,
    fun i row alive => Nat.lt_succ_of_lt (shape.minted i row alive)⟩

variable {key val : StData}

theorem Table.Shape.add (shape : t.Shape texts) (absent : t.Absent texts key) :
    (t.add texts key val).Shape texts :=
  shape.mint.addRow absent (fun i other alive => Nat.ne_of_lt (shape.minted i other alive))
    (Nat.lt_succ_self _)

theorem Table.at_add :
    (t.add texts key val).At i row ↔ t.At i row ∨ (i = t.rows.length ∧ row = ⟨t.minted, key, val⟩) :=
  at_addRow

theorem Table.Shape.addRows {rows : List Row} :
    ∀ {t : Table}, t.Shape texts →
      (∀ row ∈ rows, t.Absent texts row.key ∧ (∀ i other, t.At i other → other.stamp ≠ row.stamp) ∧
        row.stamp < t.minted) →
      rows.Pairwise (fun row later => t.kind.eq texts row.key later.key = false ∧
        row.stamp ≠ later.stamp) →
      (rows.foldl (Table.addRow texts) t).Shape texts := by
  induction rows with
  | nil => exact fun shape _ _ => shape
  | cons row rows ih =>
    intro t shape apart pairwise
    obtain ⟨absent, fresh, given⟩ := apart row mem_cons_self
    obtain ⟨fromRow, pairwise⟩ := pairwise_cons.mp pairwise
    refine ih (shape.addRow absent fresh given) (fun later mem => ?_) pairwise
    obtain ⟨absentLater, freshLater, givenLater⟩ := apart later (mem_cons_of_mem row mem)
    refine ⟨fun i other alive => ?_, fun i other alive => ?_, givenLater⟩
    · rcases at_addRow.mp alive with before | ⟨rfl, rfl⟩
      · exact absentLater i other before
      · exact (fromRow later mem).1
    · rcases at_addRow.mp alive with before | ⟨rfl, rfl⟩
      · exact freshLater i other before
      · exact (fromRow later mem).2

theorem shape_empty (kind : Kind) (numEntries minted : Nat) :
    (⟨kind, [], fun _ => [], 0, numEntries, minted⟩ : Table).Shape texts where
  counted := rfl
  inRange _ _ listed := absurd listed not_mem_nil
  listed _ _ _ alive := absurd alive (by simp [Table.At])
  distinct _ _ _ _ alive := absurd alive (by simp [Table.At])
  stamped _ _ _ _ alive := absurd alive (by simp [Table.At])
  minted _ _ alive := absurd alive (by simp [Table.At])

theorem Table.Shape.pairwise (shape : t.Shape texts) :
    (t.rows.filterMap id).Pairwise (fun row later =>
      t.kind.eq texts row.key later.key = false ∧ row.stamp ≠ later.stamp) := by
  rw [pairwise_filterMap, pairwise_iff_getElem]
  intro i j insideI insideJ before row isRow other isOther
  have alive : t.At i row := (List.getElem?_eq_getElem insideI).trans (congrArg some isRow)
  have aliveThere : t.At j other := (List.getElem?_eq_getElem insideJ).trans (congrArg some isOther)
  constructor
  · by_contra equal
    exact absurd (shape.distinct i j row other alive aliveThere (eq_true_of_ne_false equal))
      (Nat.ne_of_lt before)
  · exact fun equal => absurd (shape.stamped i j row other alive aliveThere equal)
      (Nat.ne_of_lt before)

theorem Table.Shape.rebuild (shape : t.Shape texts) (numEntries : Nat) :
    ((t.rows.filterMap id).foldl (Table.addRow texts)
      ⟨t.kind, [], fun _ => [], 0, numEntries, t.minted⟩).Shape texts := by
  refine Table.Shape.addRows (shape_empty t.kind numEntries t.minted)
    (fun row mem => ⟨fun _ _ alive => absurd alive (by simp [Table.At]),
      fun _ _ alive => absurd alive (by simp [Table.At]), ?_⟩) shape.pairwise
  obtain ⟨entry, listed, isRow⟩ := mem_filterMap.mp mem
  obtain ⟨i, inside⟩ := mem_iff_getElem?.mp listed
  exact shape.minted i row (inside.trans (congrArg some isRow))

theorem Table.snapshot_rows : t.snapshot.map Prod.snd = t.rows.filterMap id := by
  unfold snapshot
  conv_rhs => rw [← zipIdx_map_fst 0 t.rows, filterMap_map]
  rw [map_filterMap]
  refine filterMap_congr fun entry _ => ?_
  rw [Option.map_map]
  exact congrFun Option.map_id entry.1

theorem at_set {entry : Option Row} {j : Nat} (inside : i < t.rows.length) :
    (t.rows.set i entry)[j]? = some (some row) ↔
      (j = i ∧ entry = some row) ∨ (j ≠ i ∧ t.At j row) := by
  by_cases same : j = i
  · subst same
    rw [List.getElem?_set_self inside]
    simp
  · rw [List.getElem?_set_ne (Ne.symm same)]
    simp [same, Table.At]

theorem Table.At.inside (alive : t.At i row) : i < t.rows.length :=
  (List.getElem?_eq_some_iff.mp alive).1

theorem countP_set_isSome {rows : List (Option Row)} {before : Option Row}
    (was : rows[i]? = some before) (after : Option Row) :
    (rows.set i after).countP isSome + (if before.isSome then 1 else 0) =
      rows.countP isSome + if after.isSome then 1 else 0 := by
  induction rows generalizing i with
  | nil => exact absurd was (by simp)
  | cons row rows ih =>
    cases i with
    | zero =>
      cases was
      simp only [set_cons_zero, countP_cons]
      omega
    | succ i =>
      have later := ih was
      simp only [set_cons_succ, countP_cons]
      omega

section

variable (shape : t.Shape texts)

include shape

theorem Table.Shape.removeAt (i : Nat) : (t.removeAt i).Shape texts := by
  unfold Table.removeAt
  rcases entry : t.rows[i]? with _ | _ | row
  · exact shape
  · exact shape
  · have inside : i < t.rows.length := Table.At.inside entry
    have still : ∀ j other, (t.rows.set i none)[j]? = some (some other) → t.At j other :=
      fun j other alive => by
        rcases (at_set inside).mp alive with ⟨-, none⟩ | ⟨-, before⟩
        · exact absurd none (by simp)
        · exact before
    refine ⟨?_, fun h j listed => ?_, fun j other h alive => ?_, fun j k first second alive there => ?_,
      fun j k first second alive there => ?_, fun j other alive => ?_⟩
    · have count := countP_set_isSome entry none
      simp only [isSome_some, if_true, isSome_none, Bool.false_eq_true, if_false]
        at count
      change t.live - 1 = (t.rows.set i none).countP isSome
      rw [shape.counted]
      omega
    · rw [length_set]
      exact shape.inRange h j listed
    · exact shape.listed j other h (still j other alive)
    · exact shape.distinct j k first second (still j first alive) (still k second there)
    · exact shape.stamped j k first second (still j first alive) (still k second there)
    · exact shape.minted j other (still j other alive)

omit shape in
theorem Table.write_at {i stamp : Nat} {row : Row} (alive : t.At i row) :
    t.write i stamp key val = some { t with rows := t.rows.set i (some ⟨row.stamp, key, val⟩) } := by
  unfold write
  rw [show t.rows[i]? = some (some row) from alive]

theorem Table.Shape.write {key : StData} (writable : t.Writable texts i key) (stamp : Nat)
    (val : StData) :
    ∃ t', t.write i stamp key val = some t' ∧ t'.Shape texts ∧ t'.live = t.live ∧
      t'.numEntries = t.numEntries := by
  obtain ⟨row, alive, hashed, only⟩ := writable
  refine ⟨_, write_at alive, ?_, rfl, rfl⟩
  have rows : ∀ {j other}, (t.rows.set i (some ⟨row.stamp, key, val⟩))[j]? = some (some other) →
      (j = i ∧ other = ⟨row.stamp, key, val⟩) ∨ t.At j other := fun {j other} there => by
    rcases (at_set alive.inside).mp there with ⟨same, written⟩ | ⟨-, before⟩
    · exact .inl ⟨same, (some.inj written).symm⟩
    · exact .inr before
  refine ⟨?_, fun h j listed => ?_, fun j other h there => ?_,
    apart_with Kind.eq_symm shape.distinct rows only, apart_with Eq.symm shape.stamped rows
      fun j other there => shape.stamped j i other row there alive, fun j other there => ?_⟩
  · have count := countP_set_isSome alive (some ⟨row.stamp, key, val⟩)
    rw [shape.counted]
    exact (Nat.add_right_cancel count).symm
  · rw [length_set]
    exact shape.inRange h j listed
  · rcases rows there with ⟨rfl, rfl⟩ | before
    · rw [shape.listed j row h alive, hashed]
    · exact shape.listed j other h before
  · rcases rows there with ⟨rfl, rfl⟩ | before
    · exact shape.minted j row alive
    · exact shape.minted j other before

theorem Table.Shape.writable_self (alive : t.At i row) :
    t.Writable texts i row.key :=
  ⟨row, alive, rfl, fun j other there equal => shape.distinct j i other row there alive equal⟩

theorem Table.Shape.insert (key val : StData) :
    ∃ t', t.insert texts key val = some t' ∧ t'.Shape texts := by
  unfold Table.insert
  rcases shape.find_spec key with ⟨i, row, found, alive, -⟩ | ⟨missing, absent⟩
  · obtain ⟨t', written, shape', -⟩ := shape.write (shape.writable_self alive) row.stamp val
    refine ⟨t', ?_, shape'⟩
    rw [found]
    change (match t.rows[i]? with
      | some (some row) => t.write i row.stamp row.key val
      | _ => none) = _
    rw [show t.rows[i]? = some (some row) from alive]
    exact written
  · exact ⟨t.add texts key val, by rw [missing]; rfl, shape.add absent⟩

structure Table.Ok (texts : Texts) (t : Table) : Prop where
  shape : t.Shape texts
  published : t.numEntries = t.live

theorem Table.Shape.sync : t.sync.Ok texts :=
  ⟨⟨shape.counted, shape.inRange, shape.listed, shape.distinct, shape.stamped, shape.minted⟩, rfl⟩

omit shape in
theorem Table.Ok.sound (ok : t.Ok texts) : t.Sound texts := ok.shape.sound ok.published

theorem Table.Shape.delete (key : StData) :
    ∃ t', t.delete texts key = some t' ∧ t'.Ok texts := by
  unfold Table.delete
  rcases shape.find_spec key with ⟨i, row, found, -⟩ | ⟨missing, -⟩
  · exact ⟨(t.removeAt i).sync, by rw [found]; rfl, (shape.removeAt i).sync⟩
  · exact ⟨t.sync, by rw [missing]; rfl, shape.sync⟩

theorem Table.Shape.cleanupSafe : (t.cleanupSafe texts).Ok texts :=
  (shape.rebuild t.numEntries).sync

theorem Table.Shape.copy : (t.copy texts).Ok texts := by
  unfold Table.copy
  rw [← foldl_map, Table.snapshot_rows]
  exact (shape.rebuild 0).sync

end

end Zeo.Capi.St
