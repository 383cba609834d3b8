import Zeo.Enc.Transcode

/-!
# The byte counts of the units

The decoder says of each unit how many bytes it took. A unit takes at least one byte and the units
take all of them, unless the bytes end in an escape of ISO-2022-JP or are a byte-order mark alone.
-/

namespace Zeo.Enc

open Zeo.Lib Zeo.Lib.Scan List

variable {t : Tables} {bytes : List UInt8}

theorem utf8Source_fst (bytes : List UInt8) : (utf8Source bytes).1 = (Utf8.unit bytes).1 := by
  unfold utf8Source
  rcases Utf8.unit bytes with ⟨n, c | _ | _⟩ <;> rfl

theorem sourceUnit_proper (t : Tables) (id : EncodingId) : Proper (sourceUnit t id) := by
  intro bytes some_
  have one : 0 < 1 ∧ 1 ≤ bytes.length := ⟨Nat.one_pos, length_pos_of_ne_nil some_⟩
  unfold sourceUnit
  cases EncodingId.kind id with
  | utf8 =>
    rw [utf8Source_fst]
    exact Utf8.proper_unit bytes some_
  | multiByte family => exact mbScan_proper family bytes some_
  | utf16 be => exact wideScan_proper ⟨2, be⟩ bytes some_
  | utf32 be => exact wideScan_proper ⟨4, be⟩ bytes some_
  | _ => exact one

def spans (ps : List (List UInt8 × SourceUnit)) : List (SourceUnit × Nat) :=
  ps.map fun p => (p.2, p.1.length)

theorem unitSpans_eq {id : EncodingId} {ps : List (List UInt8 × SourceUnit)}
    (cuts : Cuts (sourceUnit t id) bytes ps) : unitSpans t id bytes = spans ps := by
  unfold unitSpans
  rw [cuts.scan, map_lengths_spansOf]
  rfl

theorem sum_spans (ps : List (List UInt8 × SourceUnit)) :
    ((spans ps).map Prod.snd).sum = (ps.map Prod.fst).flatten.length := by
  rw [spans, map_map, length_flatten, map_map]
  rfl

/-- Whether ISO-2022-JP bytes end in an escape that switches the mode. -/
def endsInEscape (kanji : Bool) : List UInt8 → Bool
  | b :: m :: f :: rest =>
    if b = 0x1B then
      if m = 0x28 ∧ (f = 0x42 ∨ f = 0x4A) then rest.isEmpty || endsInEscape false rest
      else if m = 0x24 ∧ (f = 0x40 ∨ f = 0x42) then rest.isEmpty || endsInEscape true rest
      else if m = 0x28 ∨ m = 0x24 then endsInEscape kanji rest
      else endsInEscape kanji (m :: f :: rest)
    else if kanji && within b 0x21 0x7E then endsInEscape kanji (f :: rest)
    else endsInEscape kanji (m :: f :: rest)
  | _ => false

/-- A turn reads an escape, which means the same in every mode, or it gives a unit and keeps the
mode. -/
theorem jisTurn_cases (t : Tables) (some_ : bytes ≠ []) :
    (∃ after, (∀ mode, jisTurn t mode bytes = (3, after, none)) ∧ 3 ≤ bytes.length ∧
      ∀ kanji, endsInEscape kanji bytes =
        ((bytes.drop 3).isEmpty || endsInEscape (after = .kanji) (bytes.drop 3))) ∨
    ∀ mode, ∃ n unit, jisTurn t mode bytes = (n, mode, some unit) ∧ 0 < n ∧ n ≤ bytes.length ∧
      endsInEscape (mode = .kanji) bytes = endsInEscape (mode = .kanji) (bytes.drop n) := by
  obtain ⟨b, rest, rfl⟩ := exists_cons_of_ne_nil some_
  by_cases isEsc : b = 0x1B
  · subst isEsc
    rcases rest with _ | ⟨m, _ | ⟨f, rest⟩⟩
    · exact .inr fun mode => ⟨1, _, rfl, by simp [endsInEscape]⟩
    · refine .inr fun mode => ?_
      by_cases lead : m = 0x28 ∨ m = 0x24
      · exact ⟨2, _, by simp [jisTurn, lead]; rfl, by simp [endsInEscape]⟩
      · exact ⟨1, _, by simp [jisTurn, lead]; rfl, by simp [endsInEscape]⟩
    · by_cases toAscii : m = 0x28 ∧ (f = 0x42 ∨ f = 0x4A)
      · exact .inl ⟨.ascii, fun mode => by simp [jisTurn, toAscii], by simp,
          fun kanji => by simp [endsInEscape, toAscii]⟩
      · by_cases toKanji : m = 0x24 ∧ (f = 0x40 ∨ f = 0x42)
        · exact .inl ⟨.kanji, fun mode => by simp [jisTurn, toKanji], by simp,
            fun kanji => by simp [endsInEscape, toKanji]⟩
        · refine .inr fun mode => ?_
          by_cases lead : m = 0x28 ∨ m = 0x24
          · exact ⟨3, _, by simp [jisTurn, toAscii, toKanji, lead]; rfl,
              by simp [endsInEscape, toAscii, toKanji, lead]⟩
          · exact ⟨1, _, by simp [jisTurn, toAscii, toKanji, lead]; rfl,
              by simp [endsInEscape, toAscii, toKanji, lead]⟩
  · refine .inr fun mode => ?_
    have short : ∀ kanji, (kanji && within b 0x21 0x7E) = false →
        endsInEscape kanji (b :: rest) = endsInEscape kanji rest := by
      intro kanji alone
      rcases rest with _ | ⟨m, _ | ⟨f, rest⟩⟩ <;> simp [endsInEscape, isEsc, alone]
    cases mode with
    | ascii | kana => exact ⟨1, _, by simp [jisTurn, isEsc]; rfl, by simp [short]⟩
    | kanji =>
      cases isLead : within b 0x21 0x7E with
      | false => exact ⟨1, _, by simp [jisTurn, isEsc, isLead]; rfl, by simp [short, isLead]⟩
      | true =>
        rcases rest with _ | ⟨c, rest⟩
        · exact ⟨1, _, by simp [jisTurn, isEsc, isLead]; rfl, by simp [endsInEscape]⟩
        · have pair : endsInEscape true (b :: c :: rest) = endsInEscape true rest := by
            cases rest <;> simp [endsInEscape, isEsc, isLead]
          by_cases isTrail : within c 0x21 0x7E = true
          · exact ⟨2, _, by simp [jisTurn, isEsc, isLead, isTrail]; rfl, by simp [pair]⟩
          · exact ⟨2, _, by simp [jisTurn, isEsc, isLead, isTrail]; rfl, by simp [pair]⟩

/-- Spans cut a string of so many bytes into parts, none of them empty. -/
def Partitions (spans : List (SourceUnit × Nat)) (total : Nat) : Prop :=
  (∀ span ∈ spans, 0 < span.2) ∧ (spans.map Prod.snd).sum = total

theorem partitions_cons {unit : SourceUnit} {n total : Nat} {spans : List (SourceUnit × Nat)} :
    Partitions ((unit, n) :: spans) (n + total) ↔ 0 < n ∧ Partitions spans total := by
  simp [Partitions, and_assoc]

/-- The units of ISO-2022-JP take all bytes unless an escape is the last of them. -/
theorem jisLoop_partitions (fuel : Nat) (mode : Mode) (held : Nat) (enough : bytes.length ≤ fuel) :
    Partitions (jisLoop t fuel mode held bytes) (held + bytes.length) ↔
      endsInEscape (mode = .kanji) bytes = false ∧ (bytes = [] → held = 0) := by
  have done : ∀ (mode : Mode) held, Partitions [] (held + ([] : List UInt8).length) ↔
      endsInEscape (mode = .kanji) [] = false ∧ (([] : List UInt8) = [] → held = 0) := by
    simp [Partitions, endsInEscape, eq_comm]
  induction fuel generalizing mode held bytes with
  | zero =>
    obtain rfl := length_eq_zero_iff.mp (Nat.le_zero.mp enough)
    exact done mode held
  | succ fuel ih =>
    by_cases empty : bytes = []
    · subst empty
      exact done mode held
    rw [jisLoop, if_neg empty]
    rcases jisTurn_cases t empty with ⟨after, turn, fits, ends⟩ | turn
    · have left : (bytes.drop 3).length = bytes.length - 3 := length_drop
      have shorter : (bytes.drop 3).length ≤ fuel := by omega
      have total : held + bytes.length = held + 3 + (bytes.drop 3).length := by omega
      rw [turn mode, total, ends]
      refine (ih after (held + 3) shorter).trans ?_
      simp [empty, and_comm]
    · obtain ⟨n, unit, same, positive, fits, ends⟩ := turn mode
      have left : (bytes.drop n).length = bytes.length - n := length_drop
      have shorter : (bytes.drop n).length ≤ fuel := by omega
      have total : held + bytes.length = held + n + (0 + (bytes.drop n).length) := by omega
      rw [same, total, ends]
      refine (partitions_cons.trans (and_congr_right fun _ => ih mode 0 shorter)).trans ?_
      simp [empty, positive]

theorem unitSpans_partitions (t : Tables) (id : EncodingId) (bytes : List UInt8) :
    Partitions (unitSpans t id bytes) bytes.length := by
  obtain ⟨ps, cuts⟩ := exists_cuts (sourceUnit_proper t id) bytes
  rw [unitSpans_eq cuts]
  refine ⟨fun span mem => ?_, by rw [sum_spans, cuts.flatten]⟩
  obtain ⟨piece, isPiece, rfl⟩ := mem_map.mp mem
  exact length_pos_of_ne_nil (cuts.nonempty piece isPiece)

variable {boms : List (List UInt8 × EncodingId)}

/-- A mark alone gives no unit, and folds into the first unit otherwise. -/
theorem bomSpans_cases (t : Tables) {n : Nat}
    (wide : ∀ bom ∈ boms, bom.1.length = n + 1) (bytes : List UInt8) :
    bytes ∈ boms.map Prod.fst ∧ bomSpans t boms bytes = [] ∨
      bytes ∉ boms.map Prod.fst ∧ Partitions (bomSpans t boms bytes) bytes.length := by
  have long : bytes ∈ boms.map Prod.fst → bytes.length = n + 1 := by
    intro mem
    obtain ⟨bom, isBom, rfl⟩ := mem_map.mp mem
    exact wide bom isBom
  unfold bomSpans
  by_cases empty : bytes = []
  · subst empty
    exact .inr ⟨fun mem => (nomatch long mem), by simp [Partitions]⟩
  rw [if_neg empty]
  cases found : boms.find? fun bom => bom.1.isPrefixOf bytes with
  | none =>
    refine .inr ⟨fun mem => ?_, by simp [Partitions, length_pos_of_ne_nil empty]⟩
    obtain ⟨bom, isBom, rfl⟩ := mem_map.mp mem
    simpa using find?_eq_none.mp found bom isBom
  | some bom =>
    obtain ⟨mark, real⟩ := bom
    have isMark : mark <+: bytes := isPrefixOf_iff_prefix.mp
      (find?_some (p := fun bom : List UInt8 × EncodingId => bom.1.isPrefixOf bytes) found)
    have isBom := mem_of_find?_eq_some found
    have fits := isMark.length_le
    obtain ⟨positive, total⟩ := unitSpans_partitions t real (bytes.drop mark.length)
    rw [length_drop] at total
    dsimp only
    cases units : unitSpans t real (bytes.drop mark.length) with
    | nil =>
      rw [units, map_nil, sum_nil] at total
      have same := isMark.eq_of_length (by omega)
      exact .inl ⟨mem_map.mpr ⟨_, isBom, same⟩, rfl⟩
    | cons span rest =>
      obtain ⟨unit, len⟩ := span
      rw [units, map_cons, sum_cons] at total
      rw [units, forall_mem_cons] at positive
      have isWide := wide _ isBom
      dsimp only at total positive isWide
      refine .inr ⟨fun mem => ?_, ?_⟩
      · have := long mem
        omega
      · rw [show bytes.length = len + mark.length + (rest.map Prod.snd).sum by omega,
          partitions_cons]
        exact ⟨by omega, positive.2, rfl⟩

/-- The byte counts of the units are positive and add up to the length of the bytes exactly unless
these end in an escape of ISO-2022-JP or are a byte-order mark and nothing else. -/
theorem decodeSpans_partition_iff (t : Tables) (src : EncodingId) (bytes : List UInt8) :
    Partitions (decodeSpans t bytes src) bytes.length ↔
      (src = iso2022jp → endsInEscape false bytes = false) ∧
        (src = utf16 → bytes ∉ utf16Boms.map Prod.fst) ∧
        (src = utf32 → bytes ∉ utf32Boms.map Prod.fst) := by
  have marked : ∀ (boms : List (List UInt8 × EncodingId)) n,
      (∀ bom ∈ boms, bom.1.length = n + 1) →
      (Partitions (bomSpans t boms bytes) bytes.length ↔ bytes ∉ boms.map Prod.fst) := by
    intro boms n wide
    rcases bomSpans_cases t wide bytes with ⟨isMark, none⟩ | ⟨other, all⟩
    · obtain ⟨bom, isBom, same⟩ := mem_map.mp isMark
      have long := wide bom isBom
      rw [same] at long
      rw [none]
      refine ⟨fun parts => ?_, fun other => absurd isMark other⟩
      have empty : 0 = bytes.length := parts.2
      omega
    · exact ⟨fun _ => other, fun _ => all⟩
  unfold decodeSpans
  split_ifs with isJis isUtf16 isUtf32
  · subst isJis
    have run := jisLoop_partitions (t := t) bytes.length .ascii 0 (Nat.le_refl _)
    simpa [decodeUnits, show iso2022jp ≠ utf16 by decide,
      show iso2022jp ≠ utf32 by decide] using run
  · subst isUtf16
    simpa [show utf16 ≠ iso2022jp by decide, show utf16 ≠ utf32 by decide] using
      marked utf16Boms 1 (by decide)
  · subst isUtf32
    simpa [show utf32 ≠ iso2022jp by decide, show utf32 ≠ utf16 by decide] using
      marked utf32Boms 3 (by decide)
  · simp [isJis, isUtf16, isUtf32, unitSpans_partitions]

def escapedHiragana : List UInt8 := [0x1B, 0x24, 0x42, 0x24, 0x22, 0x1B, 0x28, 0x42]

/-- Its escape back to ASCII is in no unit, and a mark alone gives no unit at all. -/
theorem decodeSpans_escape_lost :
    (decodeSpans noTables escapedHiragana iso2022jp).map Prod.snd = [5] ∧
      ¬ Partitions (decodeSpans noTables escapedHiragana iso2022jp) escapedHiragana.length ∧
      ¬ Partitions (decodeSpans noTables [0xFE, 0xFF] utf16) 2 :=
  ⟨by decide, fun parts => absurd parts.2 (by decide), fun parts => absurd parts.2 (by decide)⟩

end Zeo.Enc
