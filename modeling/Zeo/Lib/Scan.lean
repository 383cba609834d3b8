import Mathlib.Data.List.Basic
import Mathlib.Tactic.Common

/-!
# Left-to-right scans

A scan classifies the unit at the front of what is left of its input, records the stretch the unit
takes, and goes on behind it. The stretches are those of the pieces the input falls into, and an
input put together from pieces that are classified the same whatever follows them is taken apart
into them again.
-/

namespace Zeo.Lib.Scan

open List

variable {B A : Type}

/-- A recorded stretch `start..stop` and its classification. -/
structure Span (A : Type) where
  start : Nat
  stop : Nat
  info : A
deriving DecidableEq, Repr

/-- The loop of a scan: `skip` positions are left of the unit last classified. -/
def scanFrom (unit : List B → Nat × A) : Nat → Nat → List B → List (Span A)
  | _, _, [] => []
  | pos, 0, b :: bs =>
    ⟨pos, pos + (unit (b :: bs)).1, (unit (b :: bs)).2⟩ ::
      scanFrom unit (pos + 1) ((unit (b :: bs)).1 - 1) bs
  | pos, skip + 1, _ :: bs => scanFrom unit (pos + 1) skip bs

def scan (unit : List B → Nat × A) (bs : List B) : List (Span A) := scanFrom unit 0 0 bs

theorem scanFrom_skip (unit : List B → Nat × A) (pos skip : Nat) (bs : List B) :
    scanFrom unit pos skip bs = scanFrom unit (pos + skip) 0 (bs.drop skip) := by
  induction skip generalizing pos bs with
  | zero => rfl
  | succ skip ih =>
    cases bs with
    | nil => rfl
    | cons b bs =>
      rw [scanFrom, ih, drop_succ_cons, Nat.add_right_comm, Nat.add_assoc]

/-- Every unit takes something, and no more than there is. -/
def Proper (unit : List B → Nat × A) : Prop :=
  ∀ bs, bs ≠ [] → 0 < (unit bs).1 ∧ (unit bs).1 ≤ bs.length

/-- The input falls into these pieces: each is the unit that what is left of the input begins
with. -/
inductive Cuts (unit : List B → Nat × A) : List B → List (List B × A) → Prop where
  | done : Cuts unit [] []
  | piece {u bs : List B} {a : A} {ps : List (List B × A)} (some_ : u ≠ [])
      (classified : unit (u ++ bs) = (u.length, a)) (rest : Cuts unit bs ps) :
      Cuts unit (u ++ bs) ((u, a) :: ps)

variable {unit : List B → Nat × A} {bs : List B} {ps : List (List B × A)}

theorem exists_cuts (proper : Proper unit) (bs : List B) : ∃ ps, Cuts unit bs ps := by
  induction size : bs.length using Nat.strongRecOn generalizing bs with
  | ind n ih =>
    by_cases empty : bs = []
    · exact ⟨[], empty ▸ .done⟩
    · obtain ⟨positive, fits⟩ := proper bs empty
      obtain ⟨ps, cuts⟩ := ih (bs.drop (unit bs).1).length (by rw [length_drop]; omega) _ rfl
      have length : (bs.take (unit bs).1).length = (unit bs).1 := by
        rw [length_take, Nat.min_eq_left fits]
      refine ⟨(bs.take (unit bs).1, (unit bs).2) :: ps, ?_⟩
      have cut : Cuts unit (bs.take (unit bs).1 ++ bs.drop (unit bs).1)
          ((bs.take (unit bs).1, (unit bs).2) :: ps) :=
        .piece (ne_nil_of_length_pos (Nat.lt_of_lt_of_eq positive length.symm))
          (by rw [take_append_drop, length]) cuts
      rwa [take_append_drop] at cut

theorem Cuts.flatten (cuts : Cuts unit bs ps) : (ps.map Prod.fst).flatten = bs := by
  induction cuts with
  | done => rfl
  | piece _ _ _ ih => rw [map_cons, flatten_cons, ih]

theorem Cuts.nonempty (cuts : Cuts unit bs ps) : ∀ p ∈ ps, p.1 ≠ [] := by
  induction cuts with
  | done => exact fun _ none => absurd none not_mem_nil
  | piece some_ _ _ ih =>
    intro p mem
    rcases mem_cons.mp mem with rfl | mem
    · exact some_
    · exact ih p mem

theorem Cuts.classified (cuts : Cuts unit bs ps) :
    ∀ p ∈ ps, ∃ rest, unit (p.1 ++ rest) = (p.1.length, p.2) := by
  induction cuts with
  | done => exact fun _ none => absurd none not_mem_nil
  | @piece u bs a ps _ classified _ ih =>
    intro p mem
    rcases mem_cons.mp mem with rfl | mem
    · exact ⟨bs, classified⟩
    · exact ih p mem

/-- A piece is classified as this whatever follows it. -/
def Stands (unit : List B → Nat × A) (p : List B × A) : Prop :=
  p.1 ≠ [] ∧ ∀ rest, unit (p.1 ++ rest) = (p.1.length, p.2)

theorem cuts_of_stands (stand : ∀ p ∈ ps, Stands unit p) :
    Cuts unit (ps.map Prod.fst).flatten ps := by
  induction ps with
  | nil => exact .done
  | cons p ps ih =>
    obtain ⟨⟨some_, classified⟩, others⟩ := forall_mem_cons.mp stand
    exact .piece some_ (classified _) (ih others)

theorem exists_cuts_of_stands {meets : A → Prop} {us : List (List B)}
    (stand : ∀ u ∈ us, ∃ a, Stands unit (u, a) ∧ meets a) :
    ∃ ps, Cuts unit us.flatten ps ∧ ps.map Prod.fst = us ∧ ∀ p ∈ ps, meets p.2 := by
  choose info stands using stand
  have listed : (us.attach.map fun u => (u.1, info u.1 u.2)).map Prod.fst = us := by simp
  have each : ∀ p ∈ us.attach.map fun u => (u.1, info u.1 u.2), Stands unit p ∧ meets p.2 := by
    intro p mem
    obtain ⟨u, -, rfl⟩ := mem_map.mp mem
    exact stands u.1 u.2
  have cuts := cuts_of_stands fun p mem => (each p mem).1
  rw [listed] at cuts
  exact ⟨_, cuts, listed, fun p mem => (each p mem).2⟩

/-- The stretches of consecutive pieces, the first at `pos`. -/
def spansOf : Nat → List (List B × A) → List (Span A)
  | _, [] => []
  | pos, p :: ps => ⟨pos, pos + p.1.length, p.2⟩ :: spansOf (pos + p.1.length) ps

theorem Cuts.scanFrom (cuts : Cuts unit bs ps) (pos : Nat) :
    Scan.scanFrom unit pos 0 bs = spansOf pos ps := by
  induction cuts generalizing pos with
  | done => rfl
  | @piece u bs a ps some_ classified _ ih =>
    obtain ⟨b, u, rfl⟩ := exists_cons_of_ne_nil some_
    rw [cons_append] at classified ⊢
    rw [Scan.scanFrom, classified, scanFrom_skip, spansOf, ← ih]
    have dropped : (u ++ bs).drop ((b :: u).length - 1) = bs := by
      rw [length_cons, Nat.add_sub_cancel, drop_left]
    have position : pos + 1 + ((b :: u).length - 1) = pos + (b :: u).length := by
      rw [length_cons]
      omega
    rw [dropped, position]

/-- A scan of a whole input records the stretches of its pieces. -/
theorem Cuts.scan (cuts : Cuts unit bs ps) : Scan.scan unit bs = spansOf 0 ps := cuts.scanFrom 0

variable (pos : Nat)

theorem map_info_spansOf (ps : List (List B × A)) :
    (spansOf pos ps).map Span.info = ps.map Prod.snd := by
  induction ps generalizing pos with
  | nil => rfl
  | cons p ps ih => rw [spansOf, map_cons, map_cons, ih]

theorem map_lengths_spansOf (ps : List (List B × A)) :
    ((spansOf pos ps).map fun s => (s.info, s.stop - s.start)) =
      ps.map fun p => (p.2, p.1.length) := by
  induction ps generalizing pos with
  | nil => rfl
  | cons p ps ih =>
    rw [spansOf, map_cons, map_cons, ih, Nat.add_sub_cancel_left]

theorem Cuts.all_info (cuts : Cuts unit bs ps) (test : A → Bool) :
    (Scan.scan unit bs).all (fun s => test s.info) = true ↔ ∀ p ∈ ps, test p.2 = true := by
  have infos := map_info_spansOf 0 ps
  rw [← cuts.scan] at infos
  have tested : (Scan.scan unit bs).all (fun s => test s.info) = (ps.map Prod.snd).all test := by
    rw [← infos, all_map]
    rfl
  rw [tested, all_map, all_eq_true]
  rfl

def slice (bs : List B) (r : Nat × Nat) : List B := (bs.drop r.1).take (r.2 - r.1)

def Span.bounds (s : Span A) : Nat × Nat := (s.start, s.stop)

/-- The bounds of consecutive pieces, the first at `pos`. -/
def boundsOf : Nat → List (List B) → List (Nat × Nat)
  | _, [] => []
  | pos, u :: us => (pos, pos + u.length) :: boundsOf (pos + u.length) us

theorem map_bounds_spansOf (ps : List (List B × A)) :
    (spansOf pos ps).map Span.bounds = boundsOf pos (ps.map Prod.fst) := by
  induction ps generalizing pos with
  | nil => rfl
  | cons p ps ih =>
    rw [spansOf, map_cons, ih]
    rfl

theorem Cuts.map_bounds (cuts : Cuts unit bs ps) :
    (Scan.scan unit bs).map Span.bounds = boundsOf 0 (ps.map Prod.fst) := by
  rw [cuts.scan, map_bounds_spansOf]

variable (us : List (List B))

theorem length_boundsOf :
    (boundsOf pos us).length = us.length := by
  induction us generalizing pos with
  | nil => rfl
  | cons u us ih => rw [boundsOf, length_cons, length_cons, ih]

theorem map_slice_boundsOf (front : List B) (us : List (List B)) :
    (boundsOf front.length us).map (slice (front ++ us.flatten)) = us := by
  induction us generalizing front with
  | nil => rfl
  | cons u us ih =>
    have later := ih (front ++ u)
    rw [length_append, append_assoc] at later
    rw [boundsOf, map_cons]
    congr 1
    change ((front ++ (u ++ _)).drop front.length).take (front.length + u.length - front.length) = u
    rw [drop_left, Nat.add_sub_cancel_left, take_left]

/-- Consecutive bounds from `pos` to `stop`, none of them empty. -/
def Tiles : Nat → List (Nat × Nat) → Nat → Prop
  | pos, [], stop => pos = stop
  | pos, r :: rs, stop => r.1 = pos ∧ pos < r.2 ∧ Tiles r.2 rs stop

theorem tiles_boundsOf (nonempty : ∀ u ∈ us, u ≠ []) :
    Tiles pos (boundsOf pos us) (pos + us.flatten.length) := by
  induction us generalizing pos with
  | nil => rfl
  | cons u us ih =>
    have positive := length_pos_of_ne_nil (nonempty u mem_cons_self)
    refine ⟨rfl, Nat.lt_add_of_pos_right positive, ?_⟩
    have later := ih (pos + u.length) fun v mem => nonempty v (mem_cons_of_mem u mem)
    rwa [flatten_cons, length_append, ← Nat.add_assoc]

theorem boundsOf_append (us vs : List (List B)) :
    boundsOf pos (us ++ vs) = boundsOf pos us ++ boundsOf (pos + us.flatten.length) vs := by
  induction us generalizing pos with
  | nil => rfl
  | cons u us ih =>
    rw [cons_append, boundsOf, boundsOf, ih, flatten_cons, length_append,
      cons_append, Nat.add_assoc]

theorem boundsOf_shift (front : Nat) :
    boundsOf (front + pos) us = (boundsOf pos us).map fun r => (front + r.1, front + r.2) := by
  induction us generalizing pos with
  | nil => rfl
  | cons u us ih => rw [boundsOf, boundsOf, map_cons, Nat.add_assoc, ih]

theorem getElem?_boundsOf (k : Nat) (inside : k < us.length) :
    (boundsOf pos us)[k]? =
      some (pos + (us.take k).flatten.length, pos + (us.take (k + 1)).flatten.length) := by
  induction us generalizing pos k with
  | nil => exact absurd inside (Nat.not_lt_zero k)
  | cons u us ih =>
    cases k with
    | zero => simp [boundsOf]
    | succ k =>
      rw [boundsOf, List.getElem?_cons_succ, ih _ k (Nat.lt_of_succ_lt_succ inside)]
      simp only [take_succ_cons, flatten_cons, length_append, Nat.add_assoc]

theorem slice_pieces (start count : Nat) :
    slice us.flatten
      ((us.take start).flatten.length, (us.take (start + count)).flatten.length) =
      ((us.drop start).take count).flatten := by
  have split : us.flatten = (us.take start).flatten ++
      (((us.drop start).take count).flatten ++ ((us.drop start).drop count).flatten) := by
    rw [← flatten_append, take_append_drop, ← flatten_append, take_append_drop]
  have front : (us.take (start + count)).flatten =
      (us.take start).flatten ++ ((us.drop start).take count).flatten := by
    rw [take_add, flatten_append]
  unfold slice
  rw [front, length_append, Nat.add_sub_cancel_left]
  conv_lhs => rw [split]
  rw [drop_left, take_left]

theorem flatMap_slice_pieces (start count : Nat) :
    (((boundsOf 0 us).drop start).take count).flatMap (slice us.flatten) =
      ((us.drop start).take count).flatten := by
  have slices : (boundsOf 0 us).map (slice us.flatten) = us := map_slice_boundsOf [] us
  rw [flatMap_def, map_take, map_drop, slices]

theorem length_flatten_reverse :
    us.reverse.flatten.length = us.flatten.length := by
  rw [length_flatten, length_flatten, map_reverse, sum_reverse]

theorem boundsOf_reverse :
    ∀ total pos, total = pos + us.flatten.length →
      boundsOf 0 us.reverse =
        ((boundsOf pos us).map fun r => (total - r.2, total - r.1)).reverse := by
  induction us with
  | nil => exact fun _ _ _ => rfl
  | cons u us ih =>
    intro total pos isTotal
    rw [flatten_cons, length_append] at isTotal
    rw [reverse_cons, boundsOf_append, ih total (pos + u.length) (by omega),
      length_flatten_reverse, boundsOf, boundsOf, boundsOf, map_cons, reverse_cons]
    congr 1
    rw [show 0 + us.flatten.length = total - (pos + u.length) by omega,
      show total - (pos + u.length) + u.length = total - pos by omega]

end Zeo.Lib.Scan
