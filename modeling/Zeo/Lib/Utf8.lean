import Zeo.Lib.Scan

/-!
# UTF-8 as a strict decoder reads it

The unit at the front of a byte string is a character, a sequence that went wrong (with the bytes
up to the one that broke it), or the beginning of a character that the input is too short for.
Overlong forms, surrogates and what lies above the last code point are rejected, one byte early
where the second byte already decides.
-/

namespace Zeo.Lib.Utf8

open Zeo.Lib.Scan List

inductive Found where
  | char (c : Char)
  | bad
  | cut
deriving DecidableEq

def Found.isChar : Found → Bool
  | .char _ => true
  | _ => false

/-- The length a first byte announces, 0 if it is none. -/
def width (a : Nat) : Nat :=
  if a < 0x80 then 1
  else if a < 0xC2 then 0
  else if a ≤ 0xDF then 2
  else if a ≤ 0xEF then 3
  else if a ≤ 0xF4 then 4
  else 0

def continues (b : Nat) : Bool := 0x80 ≤ b && b ≤ 0xBF

/-- The second bytes that a first byte of a longer sequence allows. -/
def secondOk (a b : Nat) : Bool :=
  if a = 0xE0 then 0xA0 ≤ b && b ≤ 0xBF
  else if a = 0xED then 0x80 ≤ b && b ≤ 0x9F
  else if a = 0xF0 then 0x90 ≤ b && b ≤ 0xBF
  else if a = 0xF4 then 0x80 ≤ b && b ≤ 0x8F
  else continues b

/-- The unit at the front of a byte string, and its length. -/
def unit : List UInt8 → Nat × Found
  | [] => (0, .cut)
  | a :: rest =>
    let a := a.toNat
    match width a with
    | 1 => (1, .char (Char.ofNat a))
    | 2 =>
      match rest with
      | [] => (1, .cut)
      | b :: _ =>
        if continues b.toNat then (2, .char (Char.ofNat ((a - 0xC0) * 64 + (b.toNat - 0x80))))
        else (1, .bad)
    | 3 =>
      match rest with
      | [] => (1, .cut)
      | [b] => if secondOk a b.toNat then (2, .cut) else (1, .bad)
      | b :: c :: _ =>
        if secondOk a b.toNat then
          if continues c.toNat then
            (3, .char (Char.ofNat
              ((a - 0xE0) * 4096 + (b.toNat - 0x80) * 64 + (c.toNat - 0x80))))
          else (2, .bad)
        else (1, .bad)
    | 4 =>
      match rest with
      | [] => (1, .cut)
      | [b] => if secondOk a b.toNat then (2, .cut) else (1, .bad)
      | [b, c] =>
        if secondOk a b.toNat then if continues c.toNat then (3, .cut) else (2, .bad)
        else (1, .bad)
      | b :: c :: d :: _ =>
        if secondOk a b.toNat then
          if continues c.toNat then
            if continues d.toNat then
              (4, .char (Char.ofNat ((a - 0xF0) * 262144 + (b.toNat - 0x80) * 4096 +
                (c.toNat - 0x80) * 64 + (d.toNat - 0x80))))
            else (3, .bad)
          else (2, .bad)
        else (1, .bad)
    | _ => (1, .bad)

def valid (bs : List UInt8) : Bool := (scan unit bs).all fun s => s.info.isChar

def text (bs : List UInt8) : List Char :=
  (scan unit bs).filterMap fun s =>
    match s.info with
    | .char c => some c
    | _ => none

def encode (cs : List Char) : List UInt8 := cs.flatMap String.utf8EncodeChar

theorem width_cases (a : Nat) :
    width a = 0 ∨ width a = 1 ∨ width a = 2 ∨ width a = 3 ∨ width a = 4 := by
  unfold width
  split_ifs <;> simp

theorem proper_unit : Proper unit := by
  intro bs some_
  obtain ⟨a, rest, rfl⟩ := exists_cons_of_ne_nil some_
  all_goals
    simp only [unit]
    all_goals
      repeat' split
      all_goals simp

open Found

def Spells : List UInt8 → Char → Prop
  | [a], c => width a.toNat = 1 ∧ c = Char.ofNat a.toNat
  | [a, b], c => width a.toNat = 2 ∧ continues b.toNat = true ∧
    c = Char.ofNat ((a.toNat - 0xC0) * 64 + (b.toNat - 0x80))
  | [a, b, d], c => width a.toNat = 3 ∧ secondOk a.toNat b.toNat = true ∧
    continues d.toNat = true ∧
    c = Char.ofNat ((a.toNat - 0xE0) * 4096 + (b.toNat - 0x80) * 64 + (d.toNat - 0x80))
  | [a, b, d, e], c => width a.toNat = 4 ∧ secondOk a.toNat b.toNat = true ∧
    continues d.toNat = true ∧ continues e.toNat = true ∧
    c = Char.ofNat ((a.toNat - 0xF0) * 262144 + (b.toNat - 0x80) * 4096 +
      (d.toNat - 0x80) * 64 + (e.toNat - 0x80))
  | _, _ => False

variable {u : List UInt8} {c : Char}

theorem Spells.unit (spells : Spells u c) (rest : List UInt8) :
    Utf8.unit (u ++ rest) = (u.length, .char c) := by
  rcases u with _ | ⟨a, _ | ⟨b, _ | ⟨d, _ | ⟨e, _ | ⟨f, u⟩⟩⟩⟩⟩
  · exact spells.elim
  · obtain ⟨w, rfl⟩ := spells
    simp only [Utf8.unit, cons_append, w]
    rfl
  · obtain ⟨w, second, isChar⟩ := spells
    rw [isChar]
    simp only [Utf8.unit, cons_append, w, second]
    rfl
  · obtain ⟨w, second, third, isChar⟩ := spells
    rw [isChar]
    simp only [Utf8.unit, cons_append, w, second, third]
    rfl
  · obtain ⟨w, second, third, fourth, isChar⟩ := spells
    rw [isChar]
    simp only [Utf8.unit, cons_append, w, second, third, fourth]
    rfl
  · exact spells.elim

variable {bs : List UInt8}

theorem spells_of_unit {n : Nat}
    (read : unit bs = (n, .char c)) : Spells (bs.take n) c ∧ (bs.take n).length = n := by
  rcases bs with _ | ⟨a, bs⟩
  · exact absurd read (by simp [unit])
  rcases width_cases a.toNat with w | w | w | w | w
  · simp [unit, w] at read
  · simp only [unit, w] at read
    obtain ⟨rfl, rfl⟩ := read
    exact ⟨⟨w, rfl⟩, rfl⟩
  · rcases bs with _ | ⟨b, bs⟩
    · simp [unit, w] at read
    · by_cases second : continues b.toNat = true
      · simp only [unit, w, second, if_true, Prod.mk.injEq, char.injEq] at read
        obtain ⟨rfl, rfl⟩ := read
        exact ⟨⟨w, second, rfl⟩, rfl⟩
      · simp [unit, w, second] at read
  · by_cases second : secondOk a.toNat (bs.headD 0).toNat = true
    · rcases bs with _ | ⟨b, _ | ⟨d, bs⟩⟩
      · simp [unit, w] at read
      · simp_all [unit]
      · by_cases third : continues d.toNat = true
        · simp only [headD_cons] at second
          simp only [unit, w, second, third, if_true, Prod.mk.injEq, char.injEq] at read
          obtain ⟨rfl, rfl⟩ := read
          exact ⟨⟨w, second, third, rfl⟩, rfl⟩
        · simp_all [unit]
    · rcases bs with _ | ⟨b, _ | ⟨d, bs⟩⟩ <;> simp_all [unit]
  · by_cases second : secondOk a.toNat (bs.headD 0).toNat = true
    · rcases bs with _ | ⟨b, _ | ⟨d, _ | ⟨e, bs⟩⟩⟩
      · simp [unit, w] at read
      · simp_all [unit]
      · simp only [headD_cons] at second
        by_cases third : continues d.toNat = true <;> simp [unit, w, second, third] at read
      · simp only [headD_cons] at second
        by_cases third : continues d.toNat = true
        · by_cases fourth : continues e.toNat = true
          · simp only [unit, w, second, third, fourth, if_true, Prod.mk.injEq,
              char.injEq] at read
            obtain ⟨rfl, rfl⟩ := read
            exact ⟨⟨w, second, third, fourth, rfl⟩, rfl⟩
          · simp [unit, w, second, third, fourth] at read
        · simp [unit, w, second, third] at read
    · rcases bs with _ | ⟨b, _ | ⟨d, _ | ⟨e, bs⟩⟩⟩ <;> simp_all [unit]

theorem Spells.width (spells : Spells u c) :
    ∃ a rest, u = a :: rest ∧ Utf8.width a.toNat = u.length := by
  rcases u with _ | ⟨a, _ | ⟨b, _ | ⟨d, _ | ⟨e, _ | ⟨f, u⟩⟩⟩⟩⟩
  · exact spells.elim
  · exact ⟨a, _, rfl, spells.1⟩
  · exact ⟨a, _, rfl, spells.1⟩
  · exact ⟨a, _, rfl, spells.1⟩
  · exact ⟨a, _, rfl, spells.1⟩
  · exact spells.elim

/-- The code points of characters are no surrogates and not above the last. -/
theorem toNat_valid (c : Char) :
    c.val.toNat < 0xD800 ∨ (0xDFFF < c.val.toNat ∧ c.val.toNat < 0x110000) :=
  c.valid

theorem spells_encode (c : Char) : Spells (String.utf8EncodeChar c) c := by
  have valid := toNat_valid c
  have itself : ∀ n, n = c.val.toNat → c = Char.ofNat n := fun n same => by
    rw [same]
    exact (Char.ofNat_toNat c).symm
  have byte : ∀ n, n < 256 → (UInt8.ofNat n).toNat = n := fun n small => by
    rw [UInt8.toNat_ofNat', Nat.mod_eq_of_lt small]
  unfold String.utf8EncodeChar
  simp only
  generalize c.val.toNat = v at valid itself
  split_ifs with one two three
  · simp only [Spells, byte v (by omega)]
    exact ⟨by unfold width; split_ifs <;> omega, itself v rfl⟩
  · simp only [Spells, byte (v / 64 % 32 + 192) (by omega), byte (v % 64 + 128) (by omega)]
    refine ⟨by unfold width; split_ifs <;> omega, by simp [continues]; omega, itself _ (by omega)⟩
  · simp only [Spells, byte (v / 4096 % 16 + 224) (by omega),
      byte (v / 64 % 64 + 128) (by omega), byte (v % 64 + 128) (by omega)]
    refine ⟨by unfold width; split_ifs <;> omega, ?_, by simp [continues]; omega,
      itself _ (by omega)⟩
    unfold secondOk continues
    split_ifs <;> simp <;> omega
  · simp only [Spells, byte (v / 262144 % 8 + 240) (by omega),
      byte (v / 4096 % 64 + 128) (by omega), byte (v / 64 % 64 + 128) (by omega),
      byte (v % 64 + 128) (by omega)]
    refine ⟨by unfold width; split_ifs <;> omega, ?_, by simp [continues]; omega,
      by simp [continues]; omega, itself _ (by omega)⟩
    unfold secondOk continues
    split_ifs <;> simp <;> omega

theorem Spells.stands (spells : Spells u c) :
    Stands Utf8.unit (u, .char c) := by
  refine ⟨fun none => ?_, spells.unit⟩
  rw [show u = [] from none] at spells
  exact spells.elim

theorem cuts_of_valid (isValid : valid bs = true) :
    ∃ ps, Cuts unit bs ps ∧ ∀ p ∈ ps, ∃ c, p.2 = .char c ∧ Spells p.1 c := by
  obtain ⟨ps, cuts⟩ := exists_cuts proper_unit bs
  refine ⟨ps, cuts, fun p mem => ?_⟩
  have isChar := (cuts.all_info isChar).mp isValid p mem
  obtain ⟨rest, classified⟩ := cuts.classified p mem
  rcases info : p.2 with c | _ | _
  · rw [info] at classified
    obtain ⟨spells, -⟩ := spells_of_unit classified
    rw [take_left] at spells
    exact ⟨c, rfl, spells⟩
  · rw [info] at isChar
    exact absurd isChar Bool.false_ne_true
  · rw [info] at isChar
    exact absurd isChar Bool.false_ne_true

theorem valid_of_cuts {ps : List (List UInt8 × Found)} (cuts : Cuts unit bs ps)
    (chars : ∀ p ∈ ps, ∃ c, p.2 = .char c) : valid bs = true := by
  refine (cuts.all_info isChar).mpr fun p mem => ?_
  obtain ⟨c, isChar⟩ := chars p mem
  rw [isChar]
  rfl

theorem valid_of_spells {us : List (List UInt8)} (spelled : ∀ u ∈ us, ∃ c, Spells u c) :
    valid us.flatten = true := by
  have stand : ∀ u ∈ us, ∃ found, Stands unit (u, found) ∧ ∃ c, found = .char c := by
    intro u mem
    obtain ⟨c, spells⟩ := spelled u mem
    exact ⟨.char c, spells.stands, c, rfl⟩
  obtain ⟨ps, cuts, -, chars⟩ := exists_cuts_of_stands stand
  exact valid_of_cuts cuts chars

end Zeo.Lib.Utf8
