import Mathlib.Data.List.Basic

/-!
# Insertion-ordered association lists

An association list keeps its rows in insertion order and holds at most one row for each class of
equal keys, compared by a Boolean equality. A lookup goes through a probe, a borrowed form of a key.
Every operation is described by the place of the row it finds.
-/

namespace Zeo.Lib

open List

/-- A borrowed form of one key: a test on stored keys that answers as the key itself would. -/
structure Probe (K : Type) [BEq K] where
  key : K
  equivalent : K → Bool
  agrees : ∀ stored, equivalent stored = (key == stored)

def Probe.ofKey {K : Type} [BEq K] (key : K) : Probe K := ⟨key, (key == ·), fun _ => rfl⟩

namespace AssocList

variable {K V : Type} [BEq K] (rows : List (K × V)) (probe : Probe K)

def get : Option V :=
  (rows.find? fun row => probe.equivalent row.1).map (·.2)

def containsKey : Bool :=
  rows.any fun row => probe.equivalent row.1

def getIndexOf : Option Nat :=
  rows.findIdx? fun row => probe.equivalent row.1

def modifyAt (index : Nat) (write : V → V) : List (K × V) :=
  rows.modify index fun row => (row.1, write row.2)

/-- Store a value: an equal key keeps its place and its stored form and gives up its value,
a new key goes last. -/
def insert : List (K × V) → K → V → List (K × V) × Option V
  | [], key, value => ([(key, value)], none)
  | (stored, old) :: rest, key, value =>
    if stored == key then ((stored, value) :: rest, some old)
    else ((stored, old) :: (insert rest key value).1, (insert rest key value).2)

/-- Take out the row a probe finds, keeping the order of the others. -/
def shiftRemove : List (K × V) → Probe K → List (K × V) × Option V
  | [], _ => ([], none)
  | (stored, old) :: rest, probe =>
    if probe.equivalent stored then (rest, some old)
    else ((stored, old) :: (shiftRemove rest probe).1, (shiftRemove rest probe).2)

def Distinct : Prop := rows.Pairwise fun a b => (a.1 == b.1) = false

def Absent (key : K) : Prop := ∀ row ∈ rows, (row.1 == key) = false

variable (rows : List (K × V))

theorem absent_or_split (key : K) :
    Absent rows key ∨ ∃ before stored old after, rows = before ++ (stored, old) :: after ∧
      Absent before key ∧ (stored == key) = true := by
  induction rows with
  | nil => exact .inl (fun row mem => by simp at mem)
  | cons row rest ih =>
    obtain ⟨stored, old⟩ := row
    cases same : stored == key with
    | true => exact .inr ⟨[], stored, old, rest, rfl, by simp [Absent], same⟩
    | false =>
      rcases ih with absent | ⟨before, found, value, after, rfl, absent, equal⟩
      · refine .inl (fun row mem => ?_)
        rcases mem_cons.mp mem with rfl | mem
        · exact same
        · exact absent row mem
      · refine .inr ⟨(stored, old) :: before, found, value, after, rfl, ?_, equal⟩
        intro row mem
        rcases mem_cons.mp mem with rfl | mem
        · exact same
        · exact absent row mem

theorem insert_absent (key : K) (value : V) (absent : Absent rows key) :
    insert rows key value = (rows ++ [(key, value)], none) := by
  induction rows with
  | nil => rfl
  | cons row rest ih =>
    obtain ⟨first, others⟩ := forall_mem_cons.mp absent
    have later := ih others
    simp [insert, first, later]

variable (before : List (K × V)) {stored : K}

theorem insert_split (old : V) (after : List (K × V)) {key : K} (value : V)
    (absent : Absent before key) (equal : (stored == key) = true) :
    insert (before ++ (stored, old) :: after) key value =
      (before ++ (stored, value) :: after, some old) := by
  induction before with
  | nil => simp [insert, equal]
  | cons row rest ih =>
    obtain ⟨first, others⟩ := forall_mem_cons.mp absent
    have later := ih others
    simp [insert, first, later]

theorem Distinct.of_keys {rows others : List (K × V)} (distinct : Distinct rows)
    (same : others.map Prod.fst = rows.map Prod.fst) : Distinct others := by
  have keys := pairwise_map (R := fun a b : K => (a == b) = false)
    |>.mpr distinct
  rw [← same] at keys
  exact pairwise_map.mp keys

theorem insert_distinct (key : K) (value : V) (distinct : Distinct rows) :
    Distinct (insert rows key value).1 := by
  rcases absent_or_split rows key with absent | ⟨before, stored, old, after, rfl, absent, equal⟩
  · rw [insert_absent rows key value absent]
    refine pairwise_append.mpr ⟨distinct, by simp, ?_⟩
    intro row mem last lastMember
    obtain rfl := mem_singleton.mp lastMember
    exact absent row mem
  · rw [insert_split before old after value absent equal]
    exact distinct.of_keys (by simp)

theorem modifyAt_distinct (index : Nat) (write : V → V) (distinct : Distinct rows) :
    Distinct (modifyAt rows index write) := by
  refine distinct.of_keys (ext_getElem? fun i => ?_)
  simp only [modifyAt, List.getElem?_map, List.getElem?_modify]
  cases rows[i]? with
  | none => simp
  | some row => by_cases here : index = i <;> simp [here]

theorem foldl_insert (rows start : List (K × V)) (distinct : Distinct (start ++ rows)) :
    rows.foldl (fun stored row => (insert stored row.1 row.2).1) start = start ++ rows := by
  induction rows generalizing start with
  | nil => simp
  | cons row rest ih =>
    have absent : Absent start row.1 := fun other mem =>
      (pairwise_append.mp distinct).2.2 other mem row mem_cons_self
    have step : (insert start row.1 row.2).1 = start ++ [row] := by
      rw [insert_absent start row.1 row.2 absent]
    rw [foldl_cons, step, ih (start ++ [row]) (by simpa using distinct)]
    simp

section Equivalence

variable [EquivBEq K]

variable (probe : Probe K)

theorem equivalent_eq (stored : K) :
    probe.equivalent stored = (stored == probe.key) := by
  rw [probe.agrees, BEq.comm]

theorem equivalent_absent (absent : Absent rows probe.key) :
    ∀ row ∈ rows, probe.equivalent row.1 = false := by
  intro row mem
  rw [equivalent_eq]
  exact absent row mem

theorem equivalent_of_beq {probe : Probe K} (equal : (stored == probe.key) = true) :
    probe.equivalent stored = true := by
  rw [equivalent_eq, equal]

theorem find?_absent (absent : Absent rows probe.key) :
    rows.find? (fun row => probe.equivalent row.1) = none := by
  rw [List.find?_eq_none]
  intro row mem
  simp [equivalent_absent rows probe absent row mem]

theorem get_absent (absent : Absent rows probe.key) : get rows probe = none := by
  rw [get, find?_absent rows probe absent]
  rfl

theorem get_split (old : V) (after : List (K × V)) {probe : Probe K}
    (absent : Absent before probe.key) (equal : (stored == probe.key) = true) :
    get (before ++ (stored, old) :: after) probe = some old := by
  simp [get, find?_absent before probe absent, equivalent_of_beq equal]

omit [EquivBEq K] in
theorem containsKey_eq : containsKey rows probe = (get rows probe).isSome := by
  rw [get, Option.isSome_map, List.isSome_find?]
  rfl

theorem getIndexOf_absent (absent : Absent rows probe.key) :
    getIndexOf rows probe = none := by
  rw [getIndexOf, List.findIdx?_eq_none_iff]
  exact equivalent_absent rows probe absent

theorem getIndexOf_split (old : V) (after : List (K × V)) {probe : Probe K}
    (absent : Absent before probe.key) (equal : (stored == probe.key) = true) :
    getIndexOf (before ++ (stored, old) :: after) probe = some before.length := by
  have none := getIndexOf_absent before probe absent
  rw [getIndexOf] at none
  simp [getIndexOf, none, List.findIdx?_cons, equivalent_of_beq equal]

theorem shiftRemove_absent (absent : Absent rows probe.key) :
    shiftRemove rows probe = (rows, none) := by
  induction rows with
  | nil => rfl
  | cons row rest ih =>
    obtain ⟨first, others⟩ := forall_mem_cons.mp absent
    have later := ih others
    simp [shiftRemove, equivalent_eq, first, later]

theorem shiftRemove_split (old : V) (after : List (K × V)) {probe : Probe K}
    (absent : Absent before probe.key) (equal : (stored == probe.key) = true) :
    shiftRemove (before ++ (stored, old) :: after) probe = (before ++ after, some old) := by
  induction before with
  | nil => simp [shiftRemove, equivalent_eq, equal]
  | cons row rest ih =>
    obtain ⟨first, others⟩ := forall_mem_cons.mp absent
    have later := ih others
    simp [shiftRemove, equivalent_eq, first, later]

theorem shiftRemove_distinct (distinct : Distinct rows) :
    Distinct (shiftRemove rows probe).1 := by
  rcases absent_or_split rows probe.key with
    absent | ⟨before, stored, old, after, rfl, absent, equal⟩
  · rw [shiftRemove_absent rows probe absent]
    exact distinct
  · rw [shiftRemove_split before old after absent equal]
    exact distinct.sublist (List.Sublist.append_left (sublist_cons_self _ _) before)

variable {row : K × V}

theorem mem_insert {key : K} {value : V} (mem : row ∈ (insert rows key value).1) :
    row ∈ rows ∨ (row.2 = value ∧ (row.1 == key) = true) := by
  rcases absent_or_split rows key with absent | ⟨before, stored, old, after, rfl, absent, equal⟩
  · rw [insert_absent rows key value absent, mem_append, mem_singleton] at mem
    rcases mem with earlier | rfl
    · exact .inl earlier
    · exact .inr ⟨rfl, BEq.rfl⟩
  · rw [insert_split before old after value absent equal] at mem
    simp only [mem_append, mem_cons] at mem ⊢
    rcases mem with earlier | rfl | later
    · exact .inl (.inl earlier)
    · exact .inr ⟨rfl, equal⟩
    · exact .inl (.inr (.inr later))

theorem get_mem (distinct : Distinct rows) (mem : row ∈ rows) {probe : Probe K}
    (equal : (row.1 == probe.key) = true) :
    get rows probe = some row.2 := by
  obtain ⟨before, after, rfl⟩ := append_of_mem mem
  have absent : Absent before probe.key := by
    intro other earlier
    rw [← BEq.congr_right equal]
    exact (pairwise_append.mp distinct).2.2 other earlier row mem_cons_self
  exact get_split before row.2 after absent equal

theorem containsKey_mem (row : K × V) (mem : row ∈ rows) (probe : Probe K)
    (equal : (row.1 == probe.key) = true) : containsKey rows probe = true := by
  rw [containsKey, any_eq_true]
  exact ⟨row, mem, equivalent_of_beq equal⟩

theorem mem_shiftRemove {rows : List (K × V)} {probe : Probe K}
    (mem : row ∈ (shiftRemove rows probe).1) : row ∈ rows := by
  rcases absent_or_split rows probe.key with
    absent | ⟨before, stored, old, after, rfl, absent, equal⟩
  · rw [shiftRemove_absent rows probe absent] at mem
    exact mem
  · rw [shiftRemove_split before old after absent equal] at mem
    simp only [mem_append, mem_cons] at mem ⊢
    rcases mem with earlier | later
    · exact .inl earlier
    · exact .inr (.inr later)

theorem modifyAt_getIndexOf {index : Nat} (value : V) (found : getIndexOf rows probe = some index) :
    modifyAt rows index (fun _ => value) = (insert rows probe.key value).1 := by
  rcases absent_or_split rows probe.key with
    absent | ⟨before, stored, old, after, rfl, absent, equal⟩
  · rw [getIndexOf_absent rows probe absent] at found
    contradiction
  · rw [getIndexOf_split before old after absent equal, Option.some.injEq] at found
    subst found
    rw [insert_split before old after value absent equal]
    clear absent
    rw [modifyAt]
    induction before with
    | nil => rfl
    | cons row rest ih => simpa using ih

end Equivalence

end AssocList

end Zeo.Lib
