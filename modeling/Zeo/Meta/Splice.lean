import Mathlib.Data.List.Find
import Mathlib.Data.List.Nodup
import Mathlib.Data.List.Range
import Mathlib.Data.List.Sort
import Zeo.Analyze.Mro

/-!
# Splicing a module into one chain at run time

A mixin at run time edits flat chains. `splice_into_chain` finds the target in a chain, names the
part that was prepended to the target by the target's own chain, and merges the module's chain in.
-/

namespace Zeo.Meta

open Zeo.Lib Zeo.Analyze List

/-- `Placement`: the two verbs. -/
inductive Placement where
  /-- `prepend`. -/
  | before
  /-- `include`. -/
  | after
deriving DecidableEq

/-- The loop of `splice_into_chain`. -/
structure Splicing where
  chain : List ClassId
  /-- The places of the target's prepended modules, in order. -/
  area : List Nat
  ins : Nat
  added : Bool

/-- The places behind an insertion move on by one, and the new place joins them. -/
def shiftArea (area : List Nat) (ins : Nat) : List Nat :=
  (area.map (fun p => if ins ≤ p then p + 1 else p) ++ [ins]).insertionSort (· ≤ ·)

def spliceSeen (placement : Placement) (s : Splicing) (m : ClassId) : Option Nat :=
  match placement with
  | .before => s.area.find? fun p => s.chain[p]? == some m
  | .after => s.chain.idxOf? m

def spliceStep (placement : Placement) (s : Splicing) (m : ClassId) : Splicing :=
  match spliceSeen placement s m with
  | some p => { s with ins := p + 1 }
  | none =>
    { chain := s.chain.insertIdx s.ins m
      area := match placement with
        | .before => shiftArea s.area s.ins
        | .after => s.area
      ins := s.ins + 1
      added := true }

def spliceLoop (placement : Placement) (s : Splicing) (fresh : List ClassId) : Splicing :=
  fresh.foldl (spliceStep placement) s

def ownPrepends (own : List ClassId) (target : ClassId) : List ClassId :=
  own.takeWhile (· ≠ target)

/-- The places ahead of `at` that hold one of these modules. -/
def areaOf (current : List ClassId) (place : Nat) (prepends : List ClassId) : List Nat :=
  (List.range place).filter fun p => (current[p]?).any prepends.contains

/-- The loop's start at a target that is at `place`. -/
def spliceStart (own current : List ClassId) (target : ClassId) (placement : Placement)
    (place : Nat) : Splicing :=
  let area := areaOf current place (ownPrepends own target)
  let ins := match placement with
    | .before => area.head?.getD place
    | .after => place + 1
  ⟨current, area, ins, false⟩

/-- `splice_into_chain`, given the target's own chain. -/
def spliceIntoChain (own current : List ClassId) (target : ClassId) (fresh : List ClassId)
    (placement : Placement) : Option (List ClassId) :=
  match current.idxOf? target with
  | none => none
  | some place =>
    let s := spliceLoop placement (spliceStart own current target placement place) fresh
    if s.added then some s.chain else none

def spliced (own current : List ClassId) (target : ClassId) (fresh : List ClassId)
    (placement : Placement) : List ClassId :=
  (spliceIntoChain own current target fresh placement).getD current

variable {s : Splicing}

theorem spliceLoop_unchanged {placement : Placement} {fresh : List ClassId}
    (none : (spliceLoop placement s fresh).added = false) :
    s.added = false ∧ (spliceLoop placement s fresh).chain = s.chain := by
  induction fresh generalizing s with
  | nil => exact ⟨none, rfl⟩
  | cons m fresh ih =>
    obtain ⟨quiet, rest⟩ := ih none
    cases seen : spliceSeen placement s m with
    | some p =>
      have step : spliceStep placement s m = { s with ins := p + 1 } := by
        unfold spliceStep
        rw [seen]
      rw [step] at quiet rest
      refine ⟨quiet, ?_⟩
      change (spliceLoop placement (spliceStep placement s m) fresh).chain = s.chain
      rw [step]
      exact rest
    | none =>
      unfold spliceStep at quiet
      rw [seen] at quiet
      exact nomatch quiet

variable {target : ClassId} {own current : List ClassId}

theorem spliced_eq_loop (there : target ∈ current) (fresh : List ClassId) (placement : Placement) :
    spliced own current target fresh placement =
      (spliceLoop placement
        (spliceStart own current target placement (current.idxOf target)) fresh).chain := by
  obtain ⟨place, found⟩ := Option.isSome_iff_exists.mp (isSome_idxOf?.mpr there)
  have index : current.idxOf target = place := by
    rw [idxOf_eq_getD_idxOf?, found]
    rfl
  unfold spliced spliceIntoChain
  rw [found, index]
  dsimp only
  cases added : (spliceLoop placement
      (spliceStart own current target placement place) fresh).added with
  | true => rfl
  | false => exact (spliceLoop_unchanged added).2.symm

theorem spliced_absent (absent : target ∉ current) (fresh : List ClassId) (placement : Placement) :
    spliced own current target fresh placement = current := by
  have missed : current.idxOf? target = none := List.idxOf?_eq_none_iff.mpr absent
  unfold spliced spliceIntoChain
  rw [missed]
  rfl

theorem spliceLoop_after (fresh : List ClassId) (s : Splicing) :
    (spliceLoop .after s fresh).chain = (Cursor.merge ⟨s.chain, s.ins⟩ fresh).items := by
  induction fresh generalizing s with
  | nil => rfl
  | cons m fresh ih =>
    have step : (⟨(spliceStep .after s m).chain, (spliceStep .after s m).ins⟩ : Cursor ClassId) =
        Cursor.place ⟨s.chain, s.ins⟩ m := by
      unfold spliceStep spliceSeen Cursor.place
      cases s.chain.idxOf? m <;> rfl
    change (spliceLoop .after (spliceStep .after s m) fresh).chain = _
    rw [ih, Cursor.merge_cons, step]

structure Splicing.Fits (s : Splicing) : Prop where
  ins : s.ins ≤ s.chain.length
  area : ∀ p ∈ s.area, p < s.chain.length

theorem mem_shiftArea {area : List Nat} {ins p : Nat} :
    p ∈ shiftArea area ins ↔
      (∃ q ∈ area, (if ins ≤ q then q + 1 else q) = p) ∨ p = ins := by
  unfold shiftArea
  rw [mem_insertionSort, mem_append, mem_map, mem_singleton]

theorem Splicing.Fits.step (fits : s.Fits) (m : ClassId) :
    (spliceStep .before s m).Fits := by
  unfold spliceStep spliceSeen
  cases seen : s.area.find? fun p => s.chain[p]? == some m with
  | some p =>
    have place := fits.area p (mem_of_find?_eq_some seen)
    exact ⟨place, fits.area⟩
  | none =>
    have length := length_insertIdx_of_le_length fits.ins m
    refine ⟨?_, fun p mem => ?_⟩
    · rw [length]
      exact Nat.succ_le_succ fits.ins
    · rw [length]
      rcases mem_shiftArea.mp mem with ⟨q, old, rfl⟩ | rfl
      · have bound := fits.area q old
        split <;> omega
      · exact Nat.lt_succ_of_le fits.ins

/-- The same loop further back in a longer chain. -/
def Splicing.behind (s : Splicing) (front : List ClassId) : Splicing :=
  ⟨front ++ s.chain, s.area.map (front.length + ·), front.length + s.ins, s.added⟩

/-- The same loop ahead of more of the chain. -/
def Splicing.ahead (s : Splicing) (tail : List ClassId) : Splicing :=
  { s with chain := s.chain ++ tail }

theorem shiftArea_map (area : List Nat) (ins offset : Nat) :
    shiftArea (area.map (offset + ·)) (offset + ins) =
      (shiftArea area ins).map (offset + ·) := by
  unfold shiftArea
  rw [map_insertionSort (· ≤ ·) (· ≤ ·) (offset + ·) _ fun a _ b _ => by omega,
    map_append, map_map, map_map]
  congr 2
  apply map_congr_left
  intro p _
  simp only [Function.comp_apply]
  split <;> split <;> omega

theorem spliceStep_behind (front : List ClassId) (fits : s.Fits) (m : ClassId) :
    spliceStep .before (s.behind front) m = (spliceStep .before s m).behind front := by
  have found : (s.area.map (front.length + ·)).find?
      (fun p => (front ++ s.chain)[p]? == some m) =
      (s.area.find? fun p => s.chain[p]? == some m).map (front.length + ·) := by
    rw [List.find?_map]
    congr 2
    funext p
    rw [Function.comp_apply, List.getElem?_append_right (Nat.le_add_right _ _),
      Nat.add_sub_cancel_left]
  unfold spliceStep spliceSeen Splicing.behind
  rw [found]
  cases s.area.find? fun p => s.chain[p]? == some m with
  | some p => rfl
  | none =>
    simp only [Option.map_none, insertIdx_append_right _ _ fits.ins, shiftArea_map, Nat.add_assoc]

theorem spliceStep_ahead (tail : List ClassId) (fits : s.Fits) (m : ClassId) :
    spliceStep .before (s.ahead tail) m = (spliceStep .before s m).ahead tail := by
  have found : (s.area.find? fun p => (s.chain ++ tail)[p]? == some m) =
      s.area.find? fun p => s.chain[p]? == some m := by
    apply List.find?_congr
    intro p mem
    rw [List.getElem?_append_left (fits.area p mem)]
  unfold spliceStep spliceSeen Splicing.ahead
  rw [found]
  cases s.area.find? fun p => s.chain[p]? == some m with
  | some p => rfl
  | none => simp only [insertIdx_append_left _ _ fits.ins]

theorem spliceLoop_behind (front fresh : List ClassId) (fits : s.Fits) :
    spliceLoop .before (s.behind front) fresh = (spliceLoop .before s fresh).behind front := by
  induction fresh generalizing s with
  | nil => rfl
  | cons m fresh ih =>
    change spliceLoop .before (spliceStep .before (s.behind front) m) fresh = _
    rw [spliceStep_behind front fits m]
    exact ih (fits.step m)

theorem spliceLoop_ahead (tail fresh : List ClassId) (fits : s.Fits) :
    spliceLoop .before (s.ahead tail) fresh = (spliceLoop .before s fresh).ahead tail := by
  induction fresh generalizing s with
  | nil => rfl
  | cons m fresh ih =>
    change spliceLoop .before (spliceStep .before (s.ahead tail) m) fresh = _
    rw [spliceStep_ahead tail fits m]
    exact ih (fits.step m)

theorem find?_range_eq_idxOf? (items : List ClassId) (m : ClassId) :
    ((List.range items.length).find? fun p => items[p]? == some m) = items.idxOf? m := by
  by_cases there : m ∈ items
  · obtain ⟨place, found⟩ := Option.isSome_iff_exists.mp (isSome_idxOf?.mpr there)
    rw [found, List.find?_range_eq_some]
    obtain ⟨bound, here, first⟩ := List.idxOf?_eq_some_iff.mp found
    refine ⟨?_, mem_range.mpr bound, fun j earlier => ?_⟩
    · rw [List.getElem?_eq_getElem bound, here]
      exact beq_self_eq_true _
    · have bound' : j < items.length := Nat.lt_trans earlier bound
      simp [first j earlier, bound']
  · rw [List.idxOf?_eq_none_iff.mpr there, List.find?_eq_none]
    intro p _ found
    rw [beq_iff_eq] at found
    exact there (mem_of_getElem? found)

theorem shiftArea_range {count ins : Nat} (fits : ins ≤ count) :
    shiftArea (List.range count) ins = List.range (count + 1) := by
  have distinct : ((List.range count).map (fun p => if ins ≤ p then p + 1 else p) ++
      [ins]).Nodup := by
    rw [nodup_append]
    refine ⟨?_, nodup_singleton ins, ?_⟩
    · refine nodup_range.map_on fun a _ b _ same => ?_
      split at same <;> split at same <;> omega
    · intro p mem q single
      rw [mem_singleton] at single
      obtain ⟨r, -, rfl⟩ := mem_map.mp mem
      split <;> omega
  have perm : ((List.range count).map (fun p => if ins ≤ p then p + 1 else p) ++ [ins]).Perm
      (List.range (count + 1)) := by
    rw [perm_ext_iff_of_nodup distinct nodup_range]
    intro p
    rw [mem_append, mem_map, mem_singleton, mem_range]
    constructor
    · rintro (⟨q, inside, rfl⟩ | rfl)
      · rw [mem_range] at inside
        split <;> omega
      · omega
    · intro inside
      by_cases same : p = ins
      · exact .inr same
      · left
        by_cases later : ins < p
        · exact ⟨p - 1, mem_range.mpr (by omega), by rw [if_pos (by omega)]; omega⟩
        · exact ⟨p, mem_range.mpr (by omega), by rw [if_neg (by omega)]⟩
  refine List.Perm.eq_of_pairwise' (pairwise_insertionSort _ _) ?_
    ((perm_insertionSort _ _).trans perm)
  exact pairwise_le_range

theorem spliceLoop_whole {items : List ClassId} (fresh : List ClassId) {ins : Nat} (added : Bool)
    (fits : ins ≤ items.length) :
    (spliceLoop .before ⟨items, List.range items.length, ins, added⟩ fresh).chain =
      (Cursor.merge ⟨items, ins⟩ fresh).items := by
  induction fresh generalizing items ins added with
  | nil => rfl
  | cons m fresh ih =>
    change (spliceLoop .before (spliceStep .before _ m) fresh).chain = _
    rw [Cursor.merge_cons]
    unfold spliceStep spliceSeen Cursor.place
    rw [find?_range_eq_idxOf?]
    cases seen : items.idxOf? m with
    | some p =>
      obtain ⟨bound, -⟩ := List.idxOf?_eq_some_iff.mp seen
      exact ih added bound
    | none =>
      have length := length_insertIdx_of_le_length fits m
      simp only [shiftArea_range fits, ← length]
      apply ih
      rw [length]
      exact Nat.succ_le_succ fits

variable {area : List ClassId}

theorem ownPrepends_self (rest : List ClassId) (outside : target ∉ area) :
    ownPrepends (area ++ target :: rest) target = area := by
  unfold ownPrepends
  rw [takeWhile_append_of_pos fun x mem => ?_]
  · simp
  · rw [decide_eq_true_eq]
    exact fun same => outside (same ▸ mem)

/-- In a class's own chain every place ahead of it is in its area. -/
theorem areaOf_self (area rest : List ClassId) :
    areaOf (area ++ rest) area.length area = List.range area.length := by
  apply filter_eq_self.mpr
  intro p mem
  rw [mem_range] at mem
  rw [List.getElem?_append_left mem, List.getElem?_eq_getElem mem]
  simp

theorem idxOf_split (rest : List ClassId) (outside : target ∉ area) :
    (area ++ target :: rest).idxOf target = area.length := by
  rw [idxOf_append_of_notMem outside, idxOf_cons_self]
  rfl

/-- A splice into a class's own chain is one mixin of its body, with the class's index read off
the chain. -/
theorem spliced_self {chain : List ClassId} (there : target ∈ chain) (fresh : List ClassId)
    (placement : Placement) :
    spliced chain chain target fresh placement =
      (mixInto (chain, chain.idxOf target) fresh (placement = .before)).1 := by
  obtain ⟨area, rest, rfl, outside⟩ := eq_append_cons_of_mem there
  rw [spliced_eq_loop there, idxOf_split rest outside]
  cases placement with
  | after =>
    rw [spliceLoop_after]
    change _ = (mixInto (area ++ target :: rest, area.length) fresh false).1
    rw [mixInto_include]
    rfl
  | before =>
    have start : spliceStart (area ++ target :: rest) (area ++ target :: rest) target .before
        area.length = (⟨area, List.range area.length, 0, false⟩ : Splicing).ahead
          (target :: rest) := by
      unfold spliceStart
      rw [ownPrepends_self rest outside, areaOf_self]
      cases area with
      | nil => rfl
      | cons first area =>
        rw [length_cons, range_succ_eq_map]
        rfl
    have fits : (⟨area, List.range area.length, 0, false⟩ : Splicing).Fits :=
      ⟨Nat.zero_le _, fun p mem => mem_range.mp mem⟩
    rw [start, spliceLoop_ahead _ _ fits]
    change (spliceLoop .before _ fresh).chain ++ target :: rest = _
    rw [spliceLoop_whole fresh false (Nat.zero_le _)]
    change _ = (mixInto (area ++ target :: rest, area.length) fresh true).1
    rw [mixInto_area]

end Zeo.Meta
