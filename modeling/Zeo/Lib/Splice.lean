import Mathlib.Data.List.Infix
import Mathlib.Data.List.InsertIdx

/-!
# Merging a list into another at a moving point

A cursor walks over a list while the elements of a second list are merged in. An element that is
there already moves the point behind its first occurrence, and any other is put at the point. A
merge keeps the order of what was there, and a protected end of the list as long as no new element
comes right behind one that is found inside that end.
-/

namespace Zeo.Lib

open List

variable {α : Type}

structure Cursor (α : Type) where
  items : List α
  point : Nat

namespace Cursor

variable [DecidableEq α]

def place (c : Cursor α) (m : α) : Cursor α :=
  match c.items.idxOf? m with
  | some p => ⟨c.items, p + 1⟩
  | none => ⟨c.items.insertIdx c.point m, c.point + 1⟩

def merge (c : Cursor α) (sub : List α) : Cursor α := sub.foldl place c

def Fits (c : Cursor α) : Prop := c.point ≤ c.items.length

section

variable (c : Cursor α)

@[simp] theorem merge_nil : c.merge [] = c := rfl

theorem merge_cons (m : α) (sub : List α) :
    c.merge (m :: sub) = (c.place m).merge sub := rfl

theorem merge_append (first second : List α) :
    c.merge (first ++ second) = (c.merge first).merge second :=
  foldl_append

theorem merge_snoc (sub : List α) (m : α) :
    c.merge (sub ++ [m]) = (c.merge sub).place m := by
  rw [merge_append]
  rfl

variable {m : α}

theorem place_mem (there : m ∈ c.items) :
    c.place m = ⟨c.items, c.items.idxOf m + 1⟩ := by
  obtain ⟨p, found⟩ := Option.isSome_iff_exists.mp (isSome_idxOf?.mpr there)
  have index : c.items.idxOf m = p := by
    rw [idxOf_eq_getD_idxOf?, found]
    rfl
  unfold place
  rw [found, index]

theorem place_not_mem (absent : m ∉ c.items) :
    c.place m = ⟨c.items.insertIdx c.point m, c.point + 1⟩ := by
  have missed : c.items.idxOf? m = none := List.idxOf?_eq_none_iff.mpr absent
  unfold place
  rw [missed]

end

end Cursor

theorem insertIdx_seam (left right : List α) (m : α) :
    (left ++ right).insertIdx left.length m = left ++ m :: right := by
  induction left with
  | nil => rfl
  | cons a left ih =>
    change a :: (left ++ right).insertIdx left.length m = _
    rw [ih]
    rfl

variable {point : Nat}

theorem insertIdx_eq_take_drop {items : List α} (m : α) (fits : point ≤ items.length) :
    items.insertIdx point m = items.take point ++ m :: items.drop point := by
  have seam := insertIdx_seam (items.take point) (items.drop point) m
  rw [take_append_drop, length_take, Nat.min_eq_left fits] at seam
  exact seam

theorem filter_insertIdx {keep : α → Bool} (items : List α) (point : Nat)
    (dropped : keep m = false) : (items.insertIdx point m).filter keep = items.filter keep := by
  by_cases fits : point ≤ items.length
  · have split := congrArg (List.filter keep) (take_append_drop point items)
    rw [insertIdx_eq_take_drop m fits, ← split, filter_append,
      filter_append, filter_cons_of_neg (by simp [dropped])]
  · rw [insertIdx_of_length_lt (Nat.lt_of_not_le fits)]

theorem insertIdx_append_left {left : List α} (right : List α) (m : α)
    (fits : point ≤ left.length) :
    (left ++ right).insertIdx point m = left.insertIdx point m ++ right := by
  rw [insertIdx_eq_take_drop _ (by rw [length_append]; omega),
    insertIdx_eq_take_drop _ fits, take_append_of_le_length fits,
    drop_append_of_le_length fits, append_assoc]
  rfl

theorem insertIdx_append_right (left : List α) {right : List α} (m : α)
    (fits : point ≤ right.length) :
    (left ++ right).insertIdx (left.length + point) m = left ++ right.insertIdx point m := by
  have whole : left.length + point = (left ++ right.take point).length := by
    rw [length_append, length_take, Nat.min_eq_left fits]
  have split : left ++ right = (left ++ right.take point) ++ right.drop point := by
    rw [append_assoc, take_append_drop]
  rw [whole, split, insertIdx_seam, insertIdx_eq_take_drop _ fits, append_assoc]

variable {pivot : α}

theorem append_pivot_inj {left left' right right' : List α} (first : pivot ∉ left)
    (first' : pivot ∉ left') (same : left ++ pivot :: right = left' ++ pivot :: right') :
    left = left' ∧ right = right' := by
  induction left generalizing left' with
  | nil =>
    cases left' with
    | nil => exact ⟨rfl, (List.cons.inj same).2⟩
    | cons a left' =>
      have head : pivot = a := (List.cons.inj same).1
      exact absurd (head ▸ mem_cons_self) first'
  | cons a left ih =>
    cases left' with
    | nil =>
      have head : a = pivot := (List.cons.inj same).1
      exact absurd (head ▸ mem_cons_self) first
    | cons b left' =>
      obtain ⟨rfl, rest⟩ := List.cons.inj same
      obtain ⟨rfl, rfl⟩ := ih (fun mem => first (mem_cons_of_mem a mem))
        (fun mem => first' (mem_cons_of_mem a mem)) rest
      exact ⟨rfl, rfl⟩

/-- No new element comes right behind one of the zone. -/
def Undisturbed (zone : α → Prop) (items sub : List α) : Prop :=
  ∀ before x y after, sub = before ++ x :: y :: after → zone x → y ∈ items ∨ y ∈ before

variable {items sub : List α} {zone : α → Prop}

theorem Undisturbed.init (clear : Undisturbed zone items (sub ++ [m])) :
    Undisturbed zone items sub := by
  intro before x y after split inside
  have longer : sub ++ [m] = before ++ x :: y :: (after ++ [m]) := by
    rw [split, append_assoc]
    rfl
  exact clear before x y (after ++ [m]) longer inside

theorem Undisturbed.last (clear : Undisturbed zone items (sub ++ [m])) (new : m ∉ items ∧ m ∉ sub) :
    ∀ x ∈ sub.getLast?, ¬ zone x := by
  intro x final inside
  obtain ⟨before, rfl⟩ := List.getLast?_eq_some_iff.mp final
  have known := clear before x m [] (by rw [append_assoc]; rfl) inside
  cases known with
  | inl old => exact new.1 old
  | inr earlier => exact new.2 (mem_append_left _ earlier)

/-- The elements of the end of a list that do not occur before it. -/
def OnlyIn (tail own : List α) (x : α) : Prop := x ∈ tail ∧ x ∉ own

namespace Cursor

variable [DecidableEq α]

variable (c : Cursor α)

theorem place_fits (m : α) (fits : c.Fits) : (c.place m).Fits := by
  unfold Fits at *
  by_cases there : m ∈ c.items
  · have bound := idxOf_lt_length_of_mem there
    rw [place_mem c there]
    change c.items.idxOf m + 1 ≤ c.items.length
    omega
  · rw [place_not_mem c there]
    change c.point + 1 ≤ (c.items.insertIdx c.point m).length
    rw [length_insertIdx_of_le_length fits]
    omega

theorem mem_place (m x : α) (fits : c.Fits) :
    x ∈ (c.place m).items ↔ x ∈ c.items ∨ x = m := by
  by_cases there : m ∈ c.items
  · rw [place_mem c there]
    constructor
    · exact .inl
    · rintro (old | rfl)
      · exact old
      · exact there
  · rw [place_not_mem c there]
    rw [mem_insertIdx fits]
    grind

variable {known : α → Bool}

theorem place_filter (fits : c.Fits) (covers : known m = true → m ∈ c.items) :
    (c.place m).items.filter known = c.items.filter known := by
  by_cases there : m ∈ c.items
  · rw [place_mem c there]
  · have fresh : known m = false := by
      cases seen : known m with
      | false => rfl
      | true => exact absurd (covers seen) there
    rw [place_not_mem c there]
    conv_rhs => rw [← take_append_drop c.point c.items]
    rw [insertIdx_eq_take_drop _ fits, filter_append, filter_append,
      filter_cons_of_neg (by rw [fresh]; decide)]

variable (sub : List α)

theorem merge_fits (fits : c.Fits) : (c.merge sub).Fits := by
  induction sub generalizing c with
  | nil => exact fits
  | cons m sub ih => exact ih (c.place m) (place_fits c m fits)

theorem mem_merge (x : α) (fits : c.Fits) :
    x ∈ (c.merge sub).items ↔ x ∈ c.items ∨ x ∈ sub := by
  induction sub generalizing c with
  | nil => simp
  | cons m sub ih =>
    rw [merge_cons, ih _ (place_fits c m fits), mem_place c m x fits]
    grind

theorem merge_length (fits : c.Fits) :
    c.items.length ≤ (c.merge sub).items.length := by
  induction sub generalizing c with
  | nil => exact le_rfl
  | cons m sub ih =>
    have step : c.items.length ≤ (c.place m).items.length := by
      by_cases there : m ∈ c.items
      · rw [place_mem c there]
      · rw [place_not_mem c there]
        rw [length_insertIdx_of_le_length fits]
        omega
    exact le_trans step (ih _ (place_fits c m fits))

theorem merge_filter (sub : List α) (fits : c.Fits) (covers : ∀ m, known m = true → m ∈ c.items) :
    (c.merge sub).items.filter known = c.items.filter known := by
  induction sub generalizing c with
  | nil => rfl
  | cons m sub ih =>
    have later : ∀ x, known x = true → x ∈ (c.place m).items := by
      intro x seen
      rw [mem_place c m x fits]
      exact .inl (covers x seen)
    rw [merge_cons, ih _ (place_fits c m fits) later, place_filter c fits (covers m)]

theorem merge_filter_self (fits : c.Fits) :
    (c.merge sub).items.filter (· ∈ c.items) = c.items := by
  have known : ∀ m, decide (m ∈ c.items) = true → m ∈ c.items := fun _ => of_decide_eq_true
  rw [merge_filter c sub fits known]
  exact filter_eq_self.mpr fun x mem => decide_eq_true mem

theorem suffix_of_merge {sub tail : List α} (fits : c.Fits) (known : ∀ x ∈ tail, x ∈ c.items)
    (still : tail <:+ (c.merge sub).items) :
    tail <:+ c.items := by
  obtain ⟨before, split⟩ := still
  have kept := merge_filter_self c sub fits
  have whole : tail.filter (· ∈ c.items) = tail :=
    filter_eq_self.mpr fun x mem => decide_eq_true (known x mem)
  rw [← split, filter_append, whole] at kept
  exact ⟨_, kept⟩

theorem prefix_of_merge {sub front : List α} (fits : c.Fits) (known : ∀ x ∈ front, x ∈ c.items)
    (still : front <+: (c.merge sub).items) :
    front <+: c.items := by
  obtain ⟨after, split⟩ := still
  have kept := merge_filter_self c sub fits
  have whole : front.filter (· ∈ c.items) = front :=
    filter_eq_self.mpr fun x mem => decide_eq_true (known x mem)
  rw [← split, filter_append, whole] at kept
  exact ⟨_, kept⟩

theorem merge_count {x : α} (fits : c.Fits) (there : x ∈ c.items) :
    (c.merge sub).items.count x = c.items.count x := by
  have covers : ∀ m, (m == x) = true → m ∈ c.items := by
    intro m same
    rw [beq_iff_eq] at same
    exact same ▸ there
  rw [count_eq_length_filter, count_eq_length_filter, merge_filter c sub fits covers]

theorem merge_count_le (x : α) (fits : c.Fits) :
    c.items.count x ≤ (c.merge sub).items.count x := by
  by_cases there : x ∈ c.items
  · rw [merge_count c sub fits there]
  · rw [count_eq_zero_of_not_mem there]
    exact Nat.zero_le _

/-- What stood ahead of an element and behind it stays there. -/
theorem merge_around {left right : List α} (sub : List α)
    (first : pivot ∉ left) (fits : Fits ⟨left ++ pivot :: right, point⟩) :
    ∃ left' right', (merge ⟨left ++ pivot :: right, point⟩ sub).items = left' ++ pivot :: right' ∧
      pivot ∉ left' ∧ left'.filter (· ∈ left ++ pivot :: right) = left ∧
      right'.filter (· ∈ left ++ pivot :: right) = right := by
  have there : pivot ∈ left ++ pivot :: right := by simp
  have still : pivot ∈ (merge ⟨left ++ pivot :: right, point⟩ sub).items :=
    (mem_merge _ sub pivot fits).mpr (Or.inl there)
  obtain ⟨left', right', split, first'⟩ := eq_append_cons_of_mem still
  have order := merge_filter_self _ sub fits
  rw [split, filter_append, filter_cons_of_pos (by exact decide_eq_true there)] at order
  have absent : pivot ∉ left'.filter (· ∈ left ++ pivot :: right) :=
    fun mem => first' (mem_of_mem_filter mem)
  obtain ⟨sameLeft, sameRight⟩ := append_pivot_inj absent first order
  exact ⟨left', right', split, first', sameLeft, sameRight⟩

variable {front tail sub : List α}

/-- A merge behind a front leaves the front alone when it finds nothing there that the rest lacks
and puts nothing new right behind what it finds there. -/
theorem merge_behind (fits : Fits ⟨tail, point⟩) (known : ∀ x ∈ sub, x ∈ front → x ∈ tail)
    (clear : Undisturbed (· ∈ front) (front ++ tail) sub) :
    (merge ⟨front ++ tail, front.length + point⟩ sub).items =
        front ++ (merge ⟨tail, point⟩ sub).items ∧
      ((∀ x ∈ sub.getLast?, x ∉ front) → (merge ⟨front ++ tail, front.length + point⟩ sub).point =
          front.length + (merge ⟨tail, point⟩ sub).point) := by
  induction sub using List.reverseRecOn with
  | nil => exact ⟨rfl, fun _ => rfl⟩
  | append_singleton sub m ih =>
    obtain ⟨items, ends⟩ := ih (fun x mem => known x (mem_append_left _ mem)) clear.init
    have fitsNow := merge_fits _ sub fits
    have knownNow : ∀ x, x ∈ (merge ⟨tail, point⟩ sub).items ↔ x ∈ tail ∨ x ∈ sub :=
      fun x => mem_merge _ sub x fits
    rw [merge_snoc, merge_snoc]
    by_cases ahead : m ∈ front
    · have there : m ∈ (merge ⟨tail, point⟩ sub).items :=
        (knownNow m).mpr (Or.inl (known m (by simp) ahead))
      rw [place_mem _ there, place_mem _ (items ▸ mem_append_right front there)]
      exact ⟨items, fun away => absurd ahead (away m (by simp))⟩
    · by_cases there : m ∈ (merge ⟨tail, point⟩ sub).items
      · rw [place_mem _ there, place_mem _ (items ▸ mem_append_right front there)]
        refine ⟨items, fun _ => ?_⟩
        rw [items, idxOf_append_of_notMem ahead]
        rfl
      · have new : m ∉ front ++ tail ∧ m ∉ sub := by
          rw [knownNow, not_or] at there
          exact ⟨fun old => (mem_append.mp old).elim ahead there.1, there.2⟩
        have pointNow := ends (clear.last new)
        have absent : m ∉ (merge ⟨front ++ tail, front.length + point⟩ sub).items := by
          rw [items, mem_append]
          exact fun old => old.elim ahead there
        rw [place_not_mem _ there, place_not_mem _ absent]
        rw [items, pointNow, insertIdx_append_right _ _ fitsNow]
        exact ⟨rfl, fun _ => rfl⟩

theorem merge_front (fits : point ≤ front.length)
    (covered : ∀ x ∈ sub, x ∈ front ++ tail → x ∈ front) :
    merge ⟨front ++ tail, point⟩ sub =
      ⟨(merge ⟨front, point⟩ sub).items ++ tail, (merge ⟨front, point⟩ sub).point⟩ := by
  induction sub generalizing front point with
  | nil => rfl
  | cons m sub ih =>
    have rest : ∀ x ∈ sub, x ∈ front ++ tail → x ∈ front :=
      fun x mem => covered x (mem_cons_of_mem m mem)
    rw [merge_cons, merge_cons]
    by_cases there : m ∈ front
    · rw [place_mem _ (mem_append_left tail there), place_mem _ there,
        idxOf_append_of_mem there]
      exact ih (idxOf_lt_length_of_mem there) rest
    · have absent : m ∉ front ++ tail :=
        fun mem => there (covered m mem_cons_self mem)
      rw [place_not_mem _ absent, place_not_mem _ there, insertIdx_append_left _ _ fits]
      apply ih
      · rw [length_insertIdx_of_le_length fits]
        exact Nat.succ_le_succ fits
      · intro x mem
        have old := rest x mem
        rw [mem_append, mem_insertIdx fits]
        rw [mem_append] at old
        rintro ((same | inFront) | inTail)
        · exact .inl same
        · exact .inr inFront
        · exact .inr (old (.inr inTail))

/-- An undisturbed end stays, and the point stays ahead of it unless the last element was found
there. -/
theorem merge_keeps_tail {own tail sub : List α} (ahead : point ≤ own.length)
    (clear : Undisturbed (OnlyIn tail own) (own ++ tail) sub) :
    ∃ own', (merge ⟨own ++ tail, point⟩ sub).items = own' ++ tail ∧
      (∀ x, x ∈ own' ↔ x ∈ own ∨ (x ∈ sub ∧ x ∉ tail)) ∧
      ((∀ x ∈ sub.getLast?, ¬ OnlyIn tail own x) →
        (merge ⟨own ++ tail, point⟩ sub).point ≤ own'.length) := by
  -- The induction is on the end of the merged list: what happens to an element depends on where
  -- the one before it was found.
  induction sub using List.reverseRecOn with
  | nil => exact ⟨own, rfl, by simp, fun _ => ahead⟩
  | append_singleton sub m ih =>
    obtain ⟨own', items, members, point'⟩ := ih clear.init
    rw [merge_snoc]
    by_cases there : m ∈ own' ++ tail
    · have same : m ∈ (merge ⟨own ++ tail, point⟩ sub).items := by rw [items]; exact there
      rw [place_mem _ same]
      refine ⟨own', items, ?_, ?_⟩
      · intro x
        rw [members, mem_append, mem_singleton]
        constructor
        · grind
        · rintro (old | ⟨(early | rfl), out⟩)
          · exact .inl old
          · exact .inr ⟨early, out⟩
          · grind
      · intro outside
        have last : ¬ OnlyIn tail own m := outside m (by simp)
        have mine : m ∈ own' := by
          by_contra missing
          have inTail : m ∈ tail := (mem_append.mp there).resolve_left missing
          have notOwn : m ∉ own := fun old => missing ((members m).mpr (Or.inl old))
          exact last ⟨inTail, notOwn⟩
        rw [items, idxOf_append_of_mem mine]
        exact idxOf_lt_length_of_mem mine
    · have absent : m ∉ (merge ⟨own ++ tail, point⟩ sub).items := by rw [items]; exact there
      have notTail : m ∉ tail := fun old => there (mem_append_right _ old)
      have new : m ∉ own ++ tail ∧ m ∉ sub := by
        grind
      have before : (merge ⟨own ++ tail, point⟩ sub).point ≤ own'.length :=
        point' (clear.last new)
      rw [place_not_mem _ absent]
      refine ⟨own'.insertIdx (merge ⟨own ++ tail, point⟩ sub).point m, ?_, ?_, ?_⟩
      · rw [items, insertIdx_append_left _ _ before]
      · intro x
        rw [mem_insertIdx before, members, mem_append, mem_singleton]
        constructor
        · rintro (rfl | old | new)
          · exact .inr ⟨.inr rfl, notTail⟩
          · exact .inl old
          · exact .inr ⟨.inl new.1, new.2⟩
        · grind
      · intro _
        rw [length_insertIdx_of_le_length before]
        change _ + 1 ≤ _ + 1
        omega

/-- An undisturbed front stays, and the point stays behind it unless the last element was found
ahead of its last place. -/
theorem merge_keeps_front {area : List α} {rest sub : List α}
    (behind : area.length < point) (fits : Fits ⟨area ++ pivot :: rest, point⟩)
    (clear : Undisturbed (· ∈ area) (area ++ pivot :: rest) sub) :
    ∃ rest', (merge ⟨area ++ pivot :: rest, point⟩ sub).items = area ++ pivot :: rest' ∧
      ((∀ x ∈ sub.getLast?, x ∉ area) →
        area.length < (merge ⟨area ++ pivot :: rest, point⟩ sub).point) := by
  induction sub using List.reverseRecOn with
  | nil => exact ⟨rest, rfl, fun _ => behind⟩
  | append_singleton sub m ih =>
    obtain ⟨rest', items, point'⟩ := ih clear.init
    have fits' := merge_fits _ sub fits
    have members := fun x => mem_merge _ sub x fits
    rw [merge_snoc]
    generalize merge ⟨area ++ pivot :: rest, point⟩ sub = d at *
    by_cases there : m ∈ d.items
    · rw [place_mem _ there]
      refine ⟨rest', items, fun outside => ?_⟩
      have notArea : m ∉ area := outside m (by simp)
      change area.length < d.items.idxOf m + 1
      rw [items, idxOf_append_of_notMem notArea]
      omega
    · have new : m ∉ area ++ pivot :: rest ∧ m ∉ sub := by
        rw [members] at there
        exact not_or.mp there
      have past : area.length < d.point := point' (clear.last new)
      rw [place_not_mem _ there]
      refine ⟨rest'.insertIdx (d.point - (area.length + 1)) m, ?_, fun _ => ?_⟩
      · have bound : d.point - (area.length + 1) ≤ rest'.length := by
          unfold Fits at fits'
          rw [items, length_append, length_cons] at fits'
          omega
        have shift : d.point = (area ++ [pivot]).length + (d.point - (area.length + 1)) := by
          rw [length_append, length_singleton]
          omega
        have regroup : ∀ l : List α, area ++ pivot :: l = (area ++ [pivot]) ++ l := by simp
        rw [items, regroup rest', regroup (rest'.insertIdx _ m)]
        conv_lhs => rw [shift]
        exact insertIdx_append_right _ _ bound
      · change area.length < d.point + 1
        omega

theorem merge_split {before : List α} (after : List α) {x y : α} (fits : c.Fits)
    (there : x ∈ c.items)
    (new : y ∉ c.items) (late : y ∉ before) :
    ∃ d : Cursor α, d.Fits ∧ d.items = (c.merge before).items ∧
      d.point = d.items.idxOf x + 1 ∧ y ∉ d.items ∧
      c.merge (before ++ x :: y :: after) =
        merge ⟨d.items.insertIdx d.point y, d.point + 1⟩ after := by
  have known : x ∈ (c.merge before).items := by
    rw [mem_merge c _ x fits]
    exact .inl there
  have unknown : y ∉ (c.merge before).items := by
    rw [mem_merge c _ y fits]
    grind
  have stepped := place_mem (c.merge before) known
  refine ⟨(c.merge before).place x, place_fits _ _ (merge_fits c before fits), ?_, ?_, ?_, ?_⟩
  · rw [stepped]
  · rw [stepped]
  · rw [stepped]
    exact unknown
  · rw [merge_append, merge_cons, merge_cons, place_not_mem]
    rw [stepped]
    exact unknown

/-- A part that a merge leaves in place was there when `x` was met and when `y` was put behind. -/
theorem kept_at_split (kept : List α → Prop) {part : List α}
    (back : ∀ (d : Cursor α) (sub : List α), d.Fits → (∀ z ∈ part, z ∈ d.items) →
      kept (d.merge sub).items → kept d.items)
    (fits : c.Fits) (known : ∀ z ∈ part, z ∈ c.items) {before after : List α} {x y : α}
    (there : x ∈ c.items) (new : y ∉ c.items) (late : y ∉ before)
    (still : kept (c.merge (before ++ x :: y :: after)).items) :
    ∃ d : Cursor α, d.Fits ∧ d.items = (c.merge before).items ∧
      d.point = d.items.idxOf x + 1 ∧ kept d.items ∧ kept (d.items.insertIdx d.point y) := by
  obtain ⟨d, fits', items, pointAt, unmet, walk⟩ := merge_split c after fits there new late
  have met : ∀ z ∈ part, z ∈ d.items := by
    intro z mem
    rw [items, mem_merge _ _ z fits]
    exact .inl (known z mem)
  have grown : kept (d.items.insertIdx d.point y) := by
    rw [walk] at still
    refine back _ after ?_ ?_ still
    · change d.point + 1 ≤ (d.items.insertIdx d.point y).length
      rw [length_insertIdx_of_le_length fits']
      exact Nat.succ_le_succ fits'
    · intro z mem
      exact (mem_insertIdx fits').mpr (.inr (met z mem))
  refine ⟨d, fits', items, pointAt, back d [y] fits' met ?_, grown⟩
  rw [merge_cons, place_not_mem d unmet]
  exact grown

/-- A merge that starts ahead of the end of a list leaves that end alone exactly when no new
element comes right behind one found only there. -/
theorem suffix_merge_iff {own : List α} (tail sub : List α) (ahead : point ≤ own.length) :
    tail <:+ (merge ⟨own ++ tail, point⟩ sub).items ↔
      Undisturbed (OnlyIn tail own) (own ++ tail) sub := by
  constructor
  · intro still before x y after split inside
    by_contra unknown
    rw [not_or] at unknown
    have fits : Fits ⟨own ++ tail, point⟩ := by
      change point ≤ (own ++ tail).length
      rw [length_append]
      omega
    have there : x ∈ own ++ tail := mem_append_right _ inside.1
    rw [split] at still
    obtain ⟨d, -, items, pointAt, met, grown⟩ :=
      kept_at_split ⟨own ++ tail, point⟩ (tail <:+ ·) (fun d sub => suffix_of_merge d) fits
        (fun z mem => mem_append_right _ mem) there unknown.1 unknown.2 still
    obtain ⟨front, shape⟩ := met
    have notFront : x ∉ front := by
      intro mem
      have order := merge_filter_self ⟨own ++ tail, point⟩ before fits
      have whole : tail.filter (· ∈ own ++ tail) = tail := filter_eq_self.mpr
        fun z mem => decide_eq_true (mem_append_right _ mem)
      rw [← items, ← shape, filter_append, whole] at order
      have mine : x ∈ own := by
        rw [← append_cancel_right order, mem_filter]
        exact ⟨mem, decide_eq_true there⟩
      exact inside.2 mine
    have within : tail.idxOf x + 1 ≤ tail.length := idxOf_lt_length_of_mem inside.1
    rw [pointAt, ← shape, idxOf_append_of_notMem notFront, Nat.add_assoc,
      insertIdx_append_right _ _ within, insertIdx_eq_take_drop _ within,
      ← append_assoc] at grown
    have shorter : (y :: tail.drop (tail.idxOf x + 1)).length ≤ tail.length := by
      rw [length_cons, length_drop]
      omega
    have isEnd : (y :: tail.drop (tail.idxOf x + 1)) <:+ tail :=
      suffix_of_suffix_length_le (suffix_append _ _) grown shorter
    exact unknown.1 (mem_append_right _ (isEnd.subset mem_cons_self))
  · intro clear
    obtain ⟨own', items, -, -⟩ := merge_keeps_tail ahead clear
    rw [items]
    exact suffix_append _ _

/-- A merge that starts behind the front of a list leaves that front alone exactly when no new
element comes right behind one found ahead of the front's last place. -/
theorem prefix_merge_iff {area : List α} {rest : List α} (sub : List α)
    (behind : area.length < point) (fits : Fits ⟨area ++ pivot :: rest, point⟩) :
    area ++ [pivot] <+: (merge ⟨area ++ pivot :: rest, point⟩ sub).items ↔
      Undisturbed (· ∈ area) (area ++ pivot :: rest) sub := by
  have front : ∀ z ∈ area ++ [pivot], z ∈ area ++ pivot :: rest := by
    intro z mem
    grind
  constructor
  · intro still before x y after split inside
    by_contra unknown
    rw [not_or] at unknown
    have there : x ∈ area ++ pivot :: rest := mem_append_left _ inside
    rw [split] at still
    obtain ⟨d, fits', -, pointAt, met, grown⟩ :=
      kept_at_split ⟨area ++ pivot :: rest, point⟩ (area ++ [pivot] <+: ·)
        (fun d sub => prefix_of_merge d) fits front there unknown.1 unknown.2 still
    obtain ⟨later, shape⟩ := met
    have early : d.point ≤ area.length := by
      rw [pointAt, ← shape, append_assoc, idxOf_append_of_mem inside]
      exact idxOf_lt_length_of_mem inside
    -- `y` stands where the front has another element.
    have atPoint : (d.items.insertIdx d.point y)[d.point]? = some y := by
      rw [insertIdx_eq_take_drop _ fits',
        List.getElem?_append_right (by rw [length_take]; exact Nat.min_le_left _ _),
        length_take, Nat.min_eq_left fits', Nat.sub_self]
      rfl
    obtain ⟨more, grownShape⟩ := grown
    have inFront : d.point < (area ++ [pivot]).length := by
      rw [length_append, length_singleton]
      omega
    rw [← grownShape, List.getElem?_append_left inFront] at atPoint
    exact unknown.1 (front y (mem_of_getElem? atPoint))
  · intro clear
    obtain ⟨rest', items, -⟩ := merge_keeps_front behind fits clear
    rw [items]
    exact ⟨rest', by simp⟩

end Cursor

/-- What holds of each place of a list, seen with what is before it. -/
theorem forall_place_snoc {α : Type} {holds : List α → α → Prop} (items : List α) (last : α) :
    (∀ before x after, items ++ [last] = before ++ x :: after → holds before x) ↔
      (∀ before x after, items = before ++ x :: after → holds before x) ∧ holds items last := by
  constructor
  · intro each
    refine ⟨fun before x after split => ?_, each items last [] rfl⟩
    exact each before x (after ++ [last]) (by rw [split, append_assoc]; rfl)
  · rintro ⟨each, final⟩ before x after split
    cases after using List.reverseRecOn with
    | nil =>
      obtain ⟨rfl, same⟩ := append_inj' split rfl
      rw [singleton_inj] at same
      exact same ▸ final
    | append_singleton after other =>
      have regroup : items ++ [last] = (before ++ x :: after) ++ [other] := by
        rw [split, append_assoc]
        rfl
      exact each before x after (append_inj' regroup rfl).1

end Zeo.Lib
