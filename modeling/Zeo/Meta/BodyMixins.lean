import Zeo.Analyze.Prepends
import Zeo.Meta.Splice

/-!
# Mixins of a class body and mixins at run time

The compiler tracks the index of a class through the replay of its body; the runtime reads it off
the chain at every splice. The two chains part when the tracked index is stale and a mixin depends
on it, and once they have parted they never meet again.
-/

namespace Zeo.Meta

open Zeo.Lib Zeo.Analyze List Cursor

def placementOf (isPrepend : Bool) : Placement := if isPrepend then .before else .after

/-- The mixins of a class body sent one after the other to a class with this chain. -/
def mixAtRunTime (target : ClassId) (chain : List ClassId) (mixins : List SubChain) :
    List ClassId :=
  mixins.foldl (fun chain mixin => spliced chain chain target mixin.1 (placementOf mixin.2)) chain

theorem mixAtRunTime_snoc (target : ClassId) (chain : List ClassId)
    (mixins : List SubChain) (last : SubChain) :
    mixAtRunTime target chain (mixins ++ [last]) =
      spliced (mixAtRunTime target chain mixins) (mixAtRunTime target chain mixins) target last.1
        (placementOf last.2) := by
  unfold mixAtRunTime
  rw [foldl_append]
  rfl

/-- The tracked index does not matter to a mixin: an include at another index than the class's own
finds the first module of the mixed-in chain there already, and a prepend finds every module that
stands ahead of the class also ahead of the tracked index. -/
def Indifferent (c : ClassId) (state : Tracked) (mixin : SubChain) : Prop :=
  if mixin.2 then
    ∀ x ∈ mixin.1, x ∈ state.1.take (state.1.idxOf c) → x ∈ state.1.take state.2
  else state.2 = state.1.idxOf c ∨ ∀ x ∈ mixin.1.head?, x ∈ state.1

/-- A chain under construction around its class: what the tracked index covers, what else stands
ahead of the class, and what is behind it. -/
structure Around (c : ClassId) (state : Tracked) (covered more rest : List ClassId) : Prop where
  chain : state.1 = covered ++ more ++ c :: rest
  origin : state.2 = covered.length
  first : c ∉ covered ++ more

variable {c : ClassId}

theorem around_of_le {state : Tracked} (there : c ∈ state.1) (early : state.2 ≤ state.1.idxOf c) :
    ∃ covered more rest, Around c state covered more rest := by
  obtain ⟨area, rest, chain, outside⟩ := eq_append_cons_of_mem there
  rw [chain, idxOf_split rest outside] at early
  refine ⟨area.take state.2, area.drop state.2, rest, ?_, ?_, ?_⟩
  · rw [take_append_drop, chain]
  · rw [length_take]
    exact (Nat.min_eq_left early).symm
  · rw [take_append_drop]
    exact outside

section Steps

variable {c : ClassId} {state : Tracked} {covered more rest sub : List ClassId}

section

variable (around : Around c state covered more rest)

include around

theorem Around.index :
    state.1.idxOf c = (covered ++ more).length := by
  rw [around.chain]
  exact idxOf_split rest around.first

theorem Around.take_origin :
    state.1.take state.2 = covered := by
  rw [around.chain, around.origin, append_assoc, take_left]

theorem Around.take_index :
    state.1.take (state.1.idxOf c) = covered ++ more := by
  rw [around.index, around.chain, take_left]

theorem Around.mix_prepend :
    mixInto state sub true =
      ((merge ⟨covered, 0⟩ sub).items ++ (more ++ c :: rest),
        (merge ⟨covered, 0⟩ sub).items.length) := by
  have shape : state = (covered ++ (more ++ c :: rest), covered.length) := by
    rw [← append_assoc, ← around.chain, ← around.origin]
  rw [shape, mixInto_area]

theorem Around.splice_prepend (sub : List ClassId) :
    spliced state.1 state.1 c sub .before =
      (merge ⟨covered ++ more, 0⟩ sub).items ++ c :: rest := by
  have there : c ∈ state.1 := by
    rw [around.chain]
    simp
  rw [spliced_self there, around.index, around.chain]
  change (mixInto (covered ++ more ++ c :: rest, (covered ++ more).length) sub true).1 = _
  rw [mixInto_area]

theorem Around.mix_include :
    mixInto state sub false =
      ((merge ⟨covered ++ more ++ c :: rest, covered.length + 1⟩ sub).items,
        covered.length) := by
  rw [mixInto_include, around.chain, around.origin]

theorem Around.splice_include (sub : List ClassId) :
    spliced state.1 state.1 c sub .after =
      (merge ⟨covered ++ more ++ c :: rest, (covered ++ more).length + 1⟩ sub).items := by
  have there : c ∈ state.1 := by
    rw [around.chain]
    simp
  rw [spliced_self there, around.index, around.chain]
  change (mixInto (covered ++ more ++ c :: rest, (covered ++ more).length) sub false).1 = _
  rw [mixInto_include]

end

theorem point_fits (covered more rest : List ClassId) (c : ClassId) (point : Nat)
    (early : point ≤ (covered ++ more).length + 1) :
    Cursor.Fits ⟨covered ++ more ++ c :: rest, point⟩ := by
  change point ≤ (covered ++ more ++ c :: rest).length
  rw [length_append, length_cons]
  omega

theorem Around.fits (_ : Around c state covered more rest) :
    Cursor.Fits ⟨covered ++ more ++ c :: rest, covered.length + 1⟩ :=
  point_fits covered more rest c _ (by rw [length_append]; omega)

/-- A mixin that does not depend on the tracked index gives the chain of the run time. -/
theorem mixInto_eq_spliced (around : Around c state covered more rest) {mixin : SubChain}
    (indifferent : Indifferent c state mixin) :
    (mixInto state mixin.1 mixin.2).1 =
      spliced state.1 state.1 c mixin.1 (placementOf mixin.2) := by
  obtain ⟨sub, verb⟩ := mixin
  unfold Indifferent at indifferent
  cases verb with
  | true =>
    rw [around.take_index, around.take_origin] at indifferent
    change (mixInto state sub true).1 = spliced state.1 state.1 c sub .before
    rw [around.mix_prepend, around.splice_prepend,
      merge_front (Nat.zero_le _) indifferent]
    exact (append_assoc _ _ _).symm
  | false =>
    rw [around.origin, around.index] at indifferent
    change (mixInto state sub false).1 = spliced state.1 state.1 c sub .after
    rw [around.mix_include, around.splice_include]
    cases indifferent with
    | inl same => rw [same]
    | inr known =>
      cases sub with
      | nil => rfl
      | cons m sub =>
        have there : m ∈ covered ++ more ++ c :: rest := by
          rw [← around.chain]
          exact known m rfl
        rw [merge_cons, merge_cons, place_mem _ there, place_mem _ there]

end Steps

/-- The compiler's chain has a module ahead of the class only that the runtime's has behind it, or
repeats one that the runtime's chain has ahead of the class less often. -/
def Parted (c : ClassId) (compiled sent : List ClassId) : Prop :=
  (∃ m ∈ compiled, m ∉ compiled.drop (compiled.idxOf c + 1) ∧ m ∈ sent.drop (sent.idxOf c + 1)) ∨
  ∃ x ∈ sent.take (sent.idxOf c), sent.count x < compiled.count x

theorem Parted.ne {compiled sent : List ClassId} (parted : Parted c compiled sent) :
    compiled ≠ sent := by
  rintro rfl
  rcases parted with ⟨m, -, absent, present⟩ | ⟨x, -, fewer⟩
  · exact absent present
  · exact Nat.lt_irrefl _ fewer

variable {area : List ClassId}

theorem drop_split (rest : List ClassId) (outside : c ∉ area) :
    (area ++ c :: rest).drop ((area ++ c :: rest).idxOf c + 1) = rest := by
  rw [idxOf_split rest outside, drop_length_add_append]
  rfl

theorem take_split (rest : List ClassId) (outside : c ∉ area) :
    (area ++ c :: rest).take ((area ++ c :: rest).idxOf c) = area := by
  rw [idxOf_split rest outside, take_left]

theorem merge_parts {area rest : List ClassId} (sub : List ClassId) {point : Nat}
    (outside : c ∉ area) (fits : Cursor.Fits ⟨area ++ c :: rest, point⟩) :
    ∃ area' rest', (merge ⟨area ++ c :: rest, point⟩ sub).items = area' ++ c :: rest' ∧
      c ∉ area' ∧ (∀ x ∈ area, x ∈ area') ∧ (∀ x ∈ rest, x ∈ rest') ∧
      (∀ x ∈ area ++ c :: rest, x ∈ rest' → x ∈ rest) := by
  obtain ⟨area', rest', items, outside', ahead, behind⟩ :=
    merge_around sub outside fits
  refine ⟨area', rest', items, outside', fun x mem => ?_, fun x mem => ?_,
    fun x known mem => ?_⟩
  · rw [← ahead] at mem
    exact mem_of_mem_filter mem
  · rw [← behind] at mem
    exact mem_of_mem_filter mem
  · rw [← behind, mem_filter]
    exact ⟨mem, decide_eq_true known⟩

section Parting

variable {c : ClassId} {state : Tracked} {covered more rest sub : List ClassId}

/-- A prepend of other modules leaves the class behind the covered ones. -/
theorem Around.outside (around : Around c state covered more rest) {sub : List ClassId}
    (other : c ∉ sub) : c ∉ (merge ⟨covered, 0⟩ sub).items ++ more := by
  have first := around.first
  rw [mem_append] at first ⊢
  rw [mem_merge _ _ _ (Nat.zero_le _)]
  exact fun mem => mem.elim
    (fun new => new.elim (fun old => first (.inl old)) other) fun old => first (.inr old)

variable {mixin : SubChain}

/-- A module that the compiler has, but not behind the class, is not put behind it. -/
theorem compiled_stays (around : Around c state covered more rest)
    (other : c ∉ mixin.1) {m : ClassId} (there : m ∈ state.1)
    (absent : m ∉ state.1.drop (state.1.idxOf c + 1)) :
    m ∈ (mixInto state mixin.1 mixin.2).1 ∧
      m ∉ (mixInto state mixin.1 mixin.2).1.drop
        ((mixInto state mixin.1 mixin.2).1.idxOf c + 1) := by
  obtain ⟨sub, verb⟩ := mixin
  rw [around.chain, drop_split _ around.first] at absent
  have tracks : Tracks state := by
    unfold Tracks
    rw [around.chain, around.origin]
    simp only [length_append, length_cons]
    omega
  refine ⟨(mem_mixInto state sub verb tracks m).mpr (Or.inl there), ?_⟩
  cases verb with
  | true =>
    rw [around.mix_prepend, ← append_assoc, drop_split _ (around.outside other)]
    exact absent
  | false =>
    have fits := around.fits
    obtain ⟨area', rest', items, outside', -, -, back⟩ :=
      merge_parts sub around.first fits
    rw [around.mix_include, items, drop_split _ outside']
    exact fun mem => absent (back m (around.chain ▸ there) mem)

/-- What stands behind the class, and ahead of it, stays there at run time, and what stands ahead
of it is not repeated. -/
theorem sent_stays (chain : List ClassId) (there : c ∈ chain) (mixin : SubChain)
    (other : c ∉ mixin.1) :
    c ∈ spliced chain chain c mixin.1 (placementOf mixin.2) ∧
    (∀ m ∈ chain.drop (chain.idxOf c + 1),
      m ∈ (spliced chain chain c mixin.1 (placementOf mixin.2)).drop
        ((spliced chain chain c mixin.1 (placementOf mixin.2)).idxOf c + 1)) ∧
    ∀ x ∈ chain.take (chain.idxOf c),
      x ∈ (spliced chain chain c mixin.1 (placementOf mixin.2)).take
        ((spliced chain chain c mixin.1 (placementOf mixin.2)).idxOf c) ∧
      (spliced chain chain c mixin.1 (placementOf mixin.2)).count x = chain.count x := by
  obtain ⟨sub, verb⟩ := mixin
  obtain ⟨area, rest, rfl, outside⟩ := eq_append_cons_of_mem there
  have around : Around c (area ++ c :: rest, area.length) area [] rest :=
    ⟨by rw [append_nil], rfl, by rw [append_nil]; exact outside⟩
  rw [drop_split _ outside, take_split _ outside]
  cases verb with
  | true =>
    have outside' : c ∉ (merge ⟨area, 0⟩ sub).items := by
      rw [mem_merge _ _ _ (Nat.zero_le _)]
      exact fun mem => mem.elim outside other
    have result := around.splice_prepend sub
    rw [append_nil] at result
    rw [show placementOf ((sub, true) : SubChain).2 = .before from rfl, result,
      drop_split _ outside', take_split _ outside']
    refine ⟨by simp, fun _ mem => mem, fun x mem => ⟨?_, ?_⟩⟩
    · rw [mem_merge _ _ _ (Nat.zero_le _)]
      exact .inl mem
    · rw [count_append, count_append,
        merge_count ⟨area, 0⟩ sub (Nat.zero_le _) mem]
  | false =>
    have fits := point_fits area [] rest c (area.length + 1) (by rw [append_nil])
    rw [append_nil] at fits
    obtain ⟨area', rest', items, outside', ahead, behind, -⟩ :=
      merge_parts sub outside fits
    have result := around.splice_include sub
    rw [append_nil] at result
    rw [show placementOf ((sub, false) : SubChain).2 = .after from rfl, result]
    refine ⟨?_, ?_, fun x mem => ⟨?_, ?_⟩⟩
    · rw [items]
      simp
    · rw [items, drop_split _ outside']
      exact behind
    · rw [items, take_split _ outside']
      exact ahead x mem
    · exact merge_count _ sub fits (mem_append_left _ mem)

theorem compiled_count (around : Around c state covered more rest) (mixin : SubChain)
    (x : ClassId) : state.1.count x ≤ (mixInto state mixin.1 mixin.2).1.count x := by
  obtain ⟨sub, verb⟩ := mixin
  cases verb with
  | true =>
    rw [around.mix_prepend]
    have grown : covered.count x ≤ (merge ⟨covered, 0⟩ sub).items.count x :=
      merge_count_le ⟨covered, 0⟩ sub x (Nat.zero_le _)
    simp only [around.chain, count_append]
    omega
  | false =>
    have fits := around.fits
    rw [around.mix_include, around.chain]
    exact merge_count_le _ sub x fits

theorem Parted.step {chain : List ClassId} (parted : Parted c state.1 chain)
    (around : Around c state covered more rest) (there : c ∈ chain)
    (mixin : SubChain) (other : c ∉ mixin.1) :
    Parted c (mixInto state mixin.1 mixin.2).1
      (spliced chain chain c mixin.1 (placementOf mixin.2)) := by
  obtain ⟨-, behind, ahead⟩ := sent_stays chain there mixin other
  rcases parted with ⟨m, known, absent, present⟩ | ⟨x, inArea, fewer⟩
  · obtain ⟨known', absent'⟩ := compiled_stays around other known absent
    exact .inl ⟨m, known', absent', behind m present⟩
  · obtain ⟨inArea', same⟩ := ahead x inArea
    refine .inr ⟨x, inArea', ?_⟩
    rw [same]
    exact Nat.lt_of_lt_of_le fewer (compiled_count around mixin x)

theorem parts_of_dependent (around : Around c state covered more rest)
    (other : c ∉ mixin.1) (dependent : ¬ Indifferent c state mixin) :
    Parted c (mixInto state mixin.1 mixin.2).1
      (spliced state.1 state.1 c mixin.1 (placementOf mixin.2)) := by
  obtain ⟨sub, verb⟩ := mixin
  unfold Indifferent at dependent
  cases verb with
  | true =>
    -- A module ahead of the class that the tracked index does not cover is added once more.
    rw [if_pos rfl, around.take_index, around.take_origin] at dependent
    push Not at dependent
    obtain ⟨x, listed, ahead, uncovered⟩ := dependent
    have stays := sent_stays state.1 (by rw [around.chain]; simp) (sub, true) other
    have inArea : x ∈ state.1.take (state.1.idxOf c) := by
      rw [around.take_index]
      exact ahead
    obtain ⟨inArea', same⟩ := stays.2.2 x inArea
    refine .inr ⟨x, inArea', ?_⟩
    rw [same]
    have grown : 0 < (merge ⟨covered, 0⟩ sub).items.count x := by
      rw [count_pos_iff, mem_merge _ _ _ (Nat.zero_le _)]
      exact .inr listed
    rw [around.mix_prepend]
    simp only [around.chain, count_append, count_eq_zero_of_not_mem uncovered]
    omega
  | false =>
    -- The first module lands ahead of the class in the one chain and behind it in the other.
    rw [if_neg Bool.false_ne_true, around.origin, around.index] at dependent
    push Not at dependent
    obtain ⟨stale, m, first, new⟩ := dependent
    obtain ⟨tail, rfl⟩ : ∃ tail, sub = m :: tail := by
      cases sub with
      | nil => exact nomatch first
      | cons a tail =>
        rw [List.head?_cons, Option.mem_some_iff] at first
        exact ⟨tail, by rw [first]⟩
    rw [around.chain] at new
    have gap : covered.length + 1 ≤ (covered ++ more).length := by
      rw [length_append] at stale ⊢
      omega
    have notC : c ≠ m := fun same => other (same ▸ mem_cons_self)
    have early : (covered ++ more ++ c :: rest).insertIdx (covered.length + 1) m =
        (covered ++ more).insertIdx (covered.length + 1) m ++ c :: rest :=
      insertIdx_append_left _ _ gap
    have late : (covered ++ more ++ c :: rest).insertIdx ((covered ++ more).length + 1) m =
        (covered ++ more) ++ c :: m :: rest := by
      rw [insertIdx_append_right _ _ (by simp)]
      rfl
    have outside : c ∉ (covered ++ more).insertIdx (covered.length + 1) m := by
      rw [mem_insertIdx gap]
      exact fun mem => mem.elim notC around.first
    have fits : Cursor.Fits ⟨(covered ++ more).insertIdx (covered.length + 1) m ++ c :: rest,
        covered.length + 1 + 1⟩ := by
      change covered.length + 1 + 1 ≤ List.length (_ ++ _)
      rw [length_append, length_insertIdx_of_le_length gap]
      omega
    have fits' : Cursor.Fits ⟨(covered ++ more) ++ c :: m :: rest,
        (covered ++ more).length + 1 + 1⟩ := by
      change (covered ++ more).length + 1 + 1 ≤ List.length (_ ++ _)
      simp only [length_append, length_cons]
      omega
    obtain ⟨area₁, rest₁, items₁, outside₁, ahead₁, -, back₁⟩ :=
      merge_parts tail outside fits
    obtain ⟨area₂, rest₂, items₂, outside₂, -, behind₂, -⟩ :=
      merge_parts tail around.first fits'
    have compiled : (mixInto state (m :: tail) false).1 = area₁ ++ c :: rest₁ := by
      rw [around.mix_include, merge_cons, place_not_mem _ new]
      rw [early, items₁]
    have sent : spliced state.1 state.1 c (m :: tail) .after = area₂ ++ c :: rest₂ := by
      rw [around.splice_include, merge_cons, place_not_mem _ new]
      rw [late, items₂]
    change Parted c (mixInto state (m :: tail) false).1
      (spliced state.1 state.1 c (m :: tail) .after)
    rw [compiled, sent]
    have placed : m ∈ (covered ++ more).insertIdx (covered.length + 1) m :=
      (mem_insertIdx gap).mpr (Or.inl rfl)
    refine .inl ⟨m, mem_append_left _ (ahead₁ m placed), ?_, ?_⟩
    · rw [drop_split _ outside₁]
      intro mem
      have inRest := back₁ m (mem_append_left _ placed) mem
      exact new (mem_append_right _ (mem_cons_of_mem c inRest))
    · rw [drop_split _ outside₂]
      exact behind₂ m mem_cons_self

theorem Around.early (around : Around c state covered more rest) (mixin : SubChain)
    (other : c ∉ mixin.1) :
    c ∈ (mixInto state mixin.1 mixin.2).1 ∧
      (mixInto state mixin.1 mixin.2).2 ≤ (mixInto state mixin.1 mixin.2).1.idxOf c := by
  obtain ⟨sub, verb⟩ := mixin
  cases verb with
  | true =>
    rw [around.mix_prepend]
    rw [← append_assoc, idxOf_split _ (around.outside other), length_append]
    exact ⟨by simp, Nat.le_add_right _ _⟩
  | false =>
    have fits := around.fits
    obtain ⟨area', rest', items, outside', ahead, -⟩ :=
      merge_around sub around.first fits
    rw [around.mix_include]
    rw [items, idxOf_split _ outside']
    refine ⟨by simp, ?_⟩
    have fewer : (covered ++ more).length ≤ area'.length := by
      rw [← ahead]
      exact length_filter_le _ _
    rw [length_append] at fewer
    omega

end Parting

/-- The two chains are equal and no mixin depended on a stale index, or they have parted. -/
theorem agree_or_parted (inherited : List ClassId)
    {mixins : List SubChain} (others : ∀ mixin ∈ mixins, c ∉ mixin.1) :
    (c ∈ (mixAll (c :: inherited, 0) mixins).1 ∧
      (mixAll (c :: inherited, 0) mixins).2 ≤ (mixAll (c :: inherited, 0) mixins).1.idxOf c ∧
      c ∈ mixAtRunTime c (c :: inherited) mixins) ∧
    (((mixAll (c :: inherited, 0) mixins).1 = mixAtRunTime c (c :: inherited) mixins ∧
        AtEach (c :: inherited, 0) mixins (Indifferent c)) ∨
      (Parted c (mixAll (c :: inherited, 0) mixins).1 (mixAtRunTime c (c :: inherited) mixins) ∧
        ¬ AtEach (c :: inherited, 0) mixins (Indifferent c))) := by
  induction mixins using List.reverseRecOn with
  | nil =>
    refine ⟨⟨mem_cons_self, Nat.zero_le _, mem_cons_self⟩, .inl ⟨rfl, ?_⟩⟩
    intro before mixin after split
    exact absurd split (by simp)
  | append_singleton mixins last ih =>
    have other : c ∉ last.1 := others last (by simp)
    obtain ⟨⟨there, early, sent⟩, related⟩ :=
      ih fun mixin listed => others mixin (mem_append_left _ listed)
    obtain ⟨covered, more, rest, around⟩ := around_of_le there early
    rw [mixAll_snoc, mixAtRunTime_snoc, atEach_snoc]
    refine ⟨⟨(around.early last other).1, (around.early last other).2,
      (sent_stays _ sent last other).1⟩, ?_⟩
    rcases related with ⟨same, each⟩ | ⟨parted, some_⟩
    · rw [← same]
      by_cases indifferent : Indifferent c (mixAll (c :: inherited, 0) mixins) last
      · exact .inl ⟨mixInto_eq_spliced around indifferent, each, indifferent⟩
      · exact .inr ⟨parts_of_dependent around other indifferent,
          fun both => indifferent both.2⟩
    · exact .inr ⟨parted.step around sent last other, fun both => some_ both.1⟩

/-- The chain of a class body is the chain of the same mixins at run time exactly when no mixin of
the body depends on a tracked index that is not the class's own. -/
theorem body_mixins_agree_iff (table : ClassTable) (acyclic : table.Acyclic) (c : ClassId)
    (here : c < table.classes.length) :
    computeAncestors table c =
      mixAtRunTime c (c :: (table.info c).inherited (computeAncestors table))
        ((table.info c).subs (computeAncestors table)) ↔
      AtEach (c :: (table.info c).inherited (computeAncestors table), 0)
        ((table.info c).subs (computeAncestors table)) (Indifferent c) := by
  rw [computeAncestors_eq acyclic here]
  obtain ⟨-, related⟩ := agree_or_parted ((table.info c).inherited (computeAncestors table))
    (not_mem_mixin acyclic)
  rcases related with ⟨same, each⟩ | ⟨parted, some_⟩
  · exact ⟨fun _ => each, fun _ => same⟩
  · exact ⟨fun same => absurd same parted.ne, fun each => absurd each some_⟩

/-- `module A`, `module B`, `module M; include B; include A`, `module D`,
`class C; prepend A; include M; include D` and `class E; prepend D; include M`, above `Object`, in
this order. -/
def staleOriginTable : ClassTable where
  classes := [⟨none, []⟩, ⟨none, []⟩, ⟨none, []⟩, ⟨none, [(2, false), (1, false)]⟩, ⟨none, []⟩,
    ⟨some 0, [(1, true), (3, false), (4, false)]⟩, ⟨some 0, [(4, true), (3, false)]⟩]
  parents := by decide
  mixins := by decide

theorem staleOriginTable_acyclic : staleOriginTable.Acyclic :=
  acyclic_of_descending (by decide) (by decide)

/-- In the body the include of `D` lands ahead of the class, and at run time behind it. -/
theorem body_mixins_disagree : staleOriginTable.Acyclic ∧
    computeAncestors staleOriginTable 5 = [1, 2, 4, 5, 3, 0] ∧
    mixAtRunTime 5 (5 :: (staleOriginTable.info 5).inherited (computeAncestors staleOriginTable))
      ((staleOriginTable.info 5).subs (computeAncestors staleOriginTable)) = [1, 2, 5, 4, 3, 0] :=
  ⟨staleOriginTable_acyclic, by decide, by decide⟩

/-- The class `E` has the same chain by its body and at run time. -/
theorem body_mixins_agree_iff_prepend : staleOriginTable.Acyclic ∧
    AtEach (6 :: (staleOriginTable.info 6).inherited (computeAncestors staleOriginTable), 0)
      ((staleOriginTable.info 6).subs (computeAncestors staleOriginTable)) (Indifferent 6) :=
  ⟨staleOriginTable_acyclic,
    (body_mixins_agree_iff staleOriginTable staleOriginTable_acyclic 6 (by decide)).mp
      (by decide)⟩

end Zeo.Meta
