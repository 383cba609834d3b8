import Mathlib.Data.List.Induction

/-!
# Writing slots in order

A slot writer goes once over a block of cells. At each cell it either fills the cell and sets
the cell's bit in a presence word, or skips the cell. The block starts out cleared. What a
sequence of fills and skips leaves behind is read off the sequence: the cells in order, a bit
for each filled cell, and a cursor that counts them.
-/

namespace Zeo.Lib

open List

/-- A cursor over a block of cells with a presence word. -/
structure SlotWriter (α : Type) where
  cursor : Nat
  slots : List α
  /-- Bit `i` says that cell `i` was filled. -/
  present : BitVec 64

namespace SlotWriter

variable {α : Type}

/-- A cleared block of `count` cells. -/
def start (empty : α) (count : Nat) : SlotWriter α := ⟨0, List.replicate count empty, 0⟩

variable (w : SlotWriter α)

def fill (value : α) : SlotWriter α :=
  ⟨w.cursor + 1, w.slots.set w.cursor value, w.present ||| (1#64 <<< w.cursor)⟩

def skip : SlotWriter α := { w with cursor := w.cursor + 1 }

def write : Option α → SlotWriter α
  | some value => w.fill value
  | none => w.skip

def writeAll (entries : List (Option α)) : SlotWriter α :=
  entries.foldl write w

@[simp]
theorem writeAll_nil : w.writeAll [] = w := rfl

@[simp]
theorem writeAll_cons (entry : Option α) (rest : List (Option α)) :
    w.writeAll (entry :: rest) = (w.write entry).writeAll rest := rfl

theorem writeAll_append (first second : List (Option α)) :
    w.writeAll (first ++ second) = (w.writeAll first).writeAll second :=
  foldl_append

theorem foldl_fill (values : List α) :
    values.foldl fill w = w.writeAll (values.map some) := by
  rw [writeAll, foldl_map]
  rfl

/-- The block after some entries: they stand in its first cells, and only their bits are set. -/
structure Wrote (empty : α) (count : Nat) (entries : List (Option α)) (w : SlotWriter α) :
    Prop where
  cursor : w.cursor = entries.length
  slots : w.slots =
    entries.map (·.getD empty) ++ List.replicate (count - entries.length) empty
  /-- A bit is set exactly for a filled cell. -/
  present : ∀ i, i < 64 → w.present.getLsbD i = (entries[i]?.getD none).isSome

theorem start_wrote (empty : α) (count : Nat) : Wrote empty count [] (start empty count) where
  cursor := rfl
  slots := by simp [start]
  present i _ := by simp [start]

theorem getLsbD_cell (cell : Nat) {i : Nat} (inside : i < 64) :
    (1#64 <<< cell).getLsbD i = decide (i = cell) := by
  by_cases before : i < cell
  · have apart : i ≠ cell := Nat.ne_of_lt before
    simp [before, apart]
  · have rest : i - cell = 0 ↔ i = cell := by omega
    simp [before, rest, inside]

theorem Wrote.write {empty : α} {count : Nat} {entries : List (Option α)} {w : SlotWriter α}
    (wrote : Wrote empty count entries w) (entry : Option α) (room : entries.length < count) :
    Wrote empty count (entries ++ [entry]) (w.write entry) := by
  obtain ⟨cursor, slots, present⟩ := wrote
  obtain ⟨rest, remaining⟩ : ∃ rest, count - entries.length = rest + 1 :=
    ⟨count - entries.length - 1, by omega⟩
  have later : count - (entries ++ [entry]).length = rest := by simp; omega
  have lookup : ∀ i, ((entries ++ [entry])[i]?.getD none).isSome =
      if i = entries.length then entry.isSome else (entries[i]?.getD none).isSome := by
    intro i
    by_cases before : i < entries.length
    · have apart : i ≠ entries.length := Nat.ne_of_lt before
      simp [List.getElem?_append_left before, apart]
    · by_cases here : i = entries.length
      · simp [here]
      · have past : entries.length < i := by omega
        have beyond : (entries ++ [entry]).length ≤ i := by simp; omega
        rw [if_neg here, List.getElem?_eq_none beyond, List.getElem?_eq_none (Nat.le_of_lt past)]
  cases entry with
  | none =>
    refine ⟨by simp [SlotWriter.write, skip, cursor], ?_, ?_⟩
    · rw [later]
      simp [SlotWriter.write, skip, slots, remaining, replicate_succ]
    · intro i inside
      rw [lookup]
      change w.present.getLsbD i = _
      rw [present i inside]
      by_cases here : i = entries.length
      · simp [here]
      · simp [here]
  | some value =>
    refine ⟨by simp [SlotWriter.write, fill, cursor], ?_, ?_⟩
    · rw [later]
      have place : w.slots.set w.cursor value =
          entries.map (·.getD empty) ++ value :: List.replicate rest empty := by
        rw [slots, cursor, remaining, replicate_succ]
        simp
      simp [SlotWriter.write, fill, place]
    · intro i inside
      rw [lookup]
      change (w.present ||| (1#64 <<< w.cursor)).getLsbD i = _
      rw [BitVec.getLsbD_or, present i inside, getLsbD_cell w.cursor inside, cursor]
      by_cases here : i = entries.length
      · simp [here]
      · simp [here]

theorem writeAll_wrote (empty : α) (count : Nat) (entries : List (Option α))
    (fits : entries.length ≤ count) :
    Wrote empty count entries ((start empty count).writeAll entries) := by
  induction entries using List.reverseRecOn with
  | nil => exact start_wrote empty count
  | append_singleton before entry ih =>
    have room : before.length < count := by simp at fits; omega
    rw [writeAll_append]
    exact (ih (Nat.le_of_lt room)).write entry room

end SlotWriter

end Zeo.Lib
