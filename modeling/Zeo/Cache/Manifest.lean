import Mathlib.Data.List.Basic

/-!
# The manifest of a cached program

The manifest that stands beside a cached binary is a text of lines: a header, a row for each source
file with a hash of its text, and a row for each directory the files came from. A lookup reads the
lines back and checks each against the disk.
-/

namespace Zeo.Cache

open List

abbrev Path := List Char

def dropReturn (line : List Char) : List Char :=
  if line.getLast? = some '\r' then line.dropLast else line

/-- `str::lines`, with what is read of the line under way. -/
def linesFrom (line : List Char) : List Char → List (List Char)
  | [] => if line = [] then [] else [line]
  | c :: rest =>
    if c = '\n' then dropReturn line :: linesFrom [] rest else linesFrom (line ++ [c]) rest

/-- `str::lines`. -/
def lines (text : List Char) : List (List Char) := linesFrom [] text

def unlines (rows : List (List Char)) : List Char := rows.flatMap (· ++ ['\n'])

theorem linesFrom_line (line row rest : List Char) (whole : '\n' ∉ row) :
    linesFrom line (row ++ '\n' :: rest) = dropReturn (line ++ row) :: lines rest := by
  induction row generalizing line with
  | nil =>
    rw [append_nil, nil_append]
    rfl
  | cons c row ih =>
    have other : c ≠ '\n' := fun same => whole (by rw [same]; exact mem_cons_self)
    rw [cons_append, linesFrom, if_neg other,
      ih _ fun mem => whole (mem_cons_of_mem c mem), append_assoc]
    rfl

theorem lines_behind (line front rest : List Char) :
    ∃ before, linesFrom line (front ++ '\n' :: rest) = before ++ lines rest := by
  induction front generalizing line with
  | nil => exact ⟨[dropReturn line], by rw [nil_append]; rfl⟩
  | cons c front ih =>
    rw [cons_append, linesFrom]
    split
    · obtain ⟨before, same⟩ := ih []
      exact ⟨dropReturn line :: before, by rw [same]; rfl⟩
    · exact ih (line ++ [c])

/-- A row that can be read back: one line, and none that ends in a carriage return. -/
def Readable (row : List Char) : Prop := '\n' ∉ row ∧ row.getLast? ≠ some '\r'

theorem mem_lines_unlines {row : List Char} {rows : List (List Char)} (mem : row ∈ rows)
    (readable : Readable row) : row ∈ lines (unlines rows) := by
  induction rows with
  | nil => exact nomatch mem
  | cons first rows ih =>
    have text : unlines (first :: rows) = first ++ '\n' :: unlines rows := by
      unfold unlines
      rw [flatMap_cons, append_assoc]
      rfl
    rw [text]
    cases mem_cons.mp mem with
    | inl same =>
      unfold lines
      rw [← same, linesFrom_line [] row _ readable.1, nil_append]
      unfold dropReturn
      rw [if_neg readable.2]
      exact mem_cons_self
    | inr later =>
      obtain ⟨before, split⟩ := lines_behind [] first (unlines rows)
      unfold lines
      rw [split]
      exact mem_append_right before (ih later)

/-- The content hash as the manifest prints it, taken as injective. -/
structure Hashing (Text : Type) where
  stamp : Text → List Char
  injective : ∀ a b, stamp a = stamp b → a = b
  /-- A printed hash has no blank and no newline. -/
  plain : ∀ text, ' ' ∉ stamp text ∧ '\n' ∉ stamp text

/-- What a lookup reads of the disk: the source files, and the modification times of
directories. -/
structure Disk (Text : Type) where
  files : Path → Option Text
  /-- `dir_stamp`. -/
  stamps : Path → Option Nat

def header : List Char := "zeo-progcache 1".toList

variable {Text : Type}

def fileRow (h : Hashing Text) (name : Path) (text : Text) : List Char :=
  'F' :: ' ' :: (h.stamp text ++ ' ' :: name)

def dirRow (stamp : Nat) (dir : Path) : List Char :=
  'D' :: ' ' :: ((toString stamp).toList ++ ' ' :: dir)

/-- `split_once(' ')`. -/
def splitOnce : List Char → Option (List Char × List Char)
  | [] => none
  | c :: rest => if c = ' ' then some ([], rest) else (splitOnce rest).map fun (a, b) => (c :: a, b)

/-- One line of `verify`. -/
def checkLine (h : Hashing Text) (disk : Disk Text) (line : List Char) : Bool :=
  match splitOnce line with
  | none => false
  | some (kind, rest) =>
    match splitOnce rest with
    | none => false
    | some (stamp, path) =>
      if kind = ['F'] then
        match disk.files path with
        | none => false
        | some text => h.stamp text = stamp
      else if kind = ['D'] then
        (disk.stamps path).map (fun n => (toString n).toList) = some stamp
      else false

theorem splitOnce_blank {front : List Char} (rest : List Char) (plain : ' ' ∉ front) :
    splitOnce (front ++ ' ' :: rest) = some (front, rest) := by
  induction front with
  | nil => rfl
  | cons c front ih =>
    have other : c ≠ ' ' := fun same => plain (by rw [same]; exact mem_cons_self)
    rw [cons_append, splitOnce, if_neg other,
      ih fun mem => plain (mem_cons_of_mem c mem)]
    rfl

theorem checkLine_fileRow (h : Hashing Text) (disk : Disk Text) (name : Path) (text : Text) :
    checkLine h disk (fileRow h name text) = true ↔ disk.files name = some text := by
  have kind : splitOnce (fileRow h name text) = some (['F'], h.stamp text ++ ' ' :: name) := rfl
  unfold checkLine
  rw [kind]
  dsimp only
  rw [splitOnce_blank _ (h.plain text).1]
  dsimp only
  rw [if_pos rfl]
  cases disk.files name with
  | none => exact ⟨nofun, nofun⟩
  | some current =>
    rw [decide_eq_true_eq, Option.some.injEq]
    exact ⟨h.injective current text, fun same => by rw [same]⟩

theorem readable_fileRow (h : Hashing Text) {name : Path} (text : Text)
    (readable : Readable name) : Readable (fileRow h name text) := by
  unfold fileRow
  refine ⟨?_, ?_⟩
  · simp only [mem_cons, mem_append, not_or]
    exact ⟨by decide, by decide, (h.plain text).2, by decide, readable.1⟩
  · cases last : name.getLast? with
    | none => simp [List.getLast?_cons, last]
    | some c =>
      have other : c ≠ '\r' := fun same => readable.2 (by rw [last, same])
      simp [List.getLast?_cons, last, other]

end Zeo.Cache
