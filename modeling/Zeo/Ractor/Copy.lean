import Zeo.Lib.RootedGraph
import Zeo.Ractor.Crosses
import Zeo.Ractor.MakeShareable
import Zeo.Value.HashRun

/-!
# Copied messages

The heap read as a graph: a node shows its kind, its flags and what it holds that is no value, and
leads to the values it holds in order. A copied message should be isomorphic to its source, and
share with it nothing that can still be changed.

The copy of a string, an array or a hash is not frozen and lacks the instance variables kept beside
it. A pair of a hash is stored as if it were new, so that keys may fall together. And a shareable
value passes by reference with everything behind it. What comes of these is exactly what is lost.
-/

namespace Zeo.Ractor

open Zeo.Lib Zeo.Value List Heap

variable {eql : UserEql} {im : ValueMap eql}

/-- The kind of a node, and what it holds that is no value. -/
inductive Shape where
  | str (buf : StrBuf)
  | array
  /-- A hash: the number of its pairs, its comparison, and whether it has a default proc. -/
  | hash (pairs : Nat) (byIdentity proc : Bool)
  | range (start finish excl : Bool)
  | object (type : ObjectType) (cls : Nat) (names : List String) (members : Nat) (payload : Bool)
  | atom (v : RubyValue)

structure Label where
  shape : Shape
  frozen : Bool
  beside : List String

variable (h : Heap im)

def shapeOf : RubyValue → Shape
  | .str (.shared addr) => .str (h.str addr)
  | .str (.frozenCopy _ buf) => .str buf
  | .array _ => .array
  | .hash addr => .hash (hashPairsSnapshot (h.table addr)).length (h.table addr).compareByIdentity
      (h.table addr).defaultProc.isSome
  | .range addr => .range (h.range addr).1.isSome (h.range addr).2.1.isSome (h.range addr).2.2
  | .object addr => .object (h.object addr).type (h.object addr).cls
      ((h.object addr).ivars.map (·.1)) (h.object addr).members.length
      (h.object addr).payload.isSome
  | v => .atom v

def flagOf : RubyValue → Bool
  | .str s => h.strFrozen s
  | .array addr => h.frozen addr
  | .hash addr => h.frozen addr
  | .object addr => h.frozen addr
  | _ => true

def besideOf : RubyValue → Fields
  | .str (.shared addr) => h.sideIvars addr
  | .array addr => h.sideIvars addr
  | .hash addr => h.sideIvars addr
  | .object addr => h.sideIvars addr
  | _ => []

def graphOf : LabelledGraph RubyValue Label where
  label v := ⟨shapeOf h v, flagOf h v, (besideOf h v).map (·.1)⟩
  succ v := storedEdges h v ++ (besideOf h v).map (·.2)

/-- A string, an array, a hash, an object that is nothing but its instance variables, or another value
that passes by reference and has nothing beside it; none of them moved. -/
def Ordinary (v : RubyValue) : Prop :=
  husk h v = false ∧
    match v with
    | .str _ => True
    | .array _ => True
    | .hash _ => True
    | .object addr => (h.object addr).type.port = false ∧ (h.object addr).members = [] ∧
        (h.object addr).payload = none ∧ (h.object addr).listed = none
    | v => shareable h v = true ∧ hiddenEdges h v = []

/-- A graph of strings, arrays, hashes and plain objects. -/
def OrdinaryGraph (v : RubyValue) : Prop :=
  ∀ u, (graphOf h).Reach v u → Ordinary h u

def Unchanged (h h' : Heap im) : Prop := ∀ addr < h.next, h'.cell addr = h.cell addr

/-- What two values both lead to cannot be changed. -/
def Apart (v : RubyValue) (h' : Heap im) (v' : RubyValue) : Prop :=
  ∀ u, (graphOf h).Reach v u → (graphOf h').Reach v' u → unfrozen h u = false

/-- A node that is made anew comes out as it was: it is an object or is not frozen, and nothing is
kept beside it. -/
def Renewable (v : RubyValue) : Prop :=
  besideOf h v = [] ∧ ((∃ addr, v = .object addr) ∨ flagOf h v = false)

def KeysFrozen (addr : Addr) : Prop :=
  (h.table addr).compareByIdentity = true ∨
    ∀ key ∈ (hashPairsSnapshot (h.table addr)).map (·.1), ∀ a, key = .str (.shared a) →
      h.frozen a = true

/-- Every node that is made anew comes out as it was. -/
def NodesKept (v : RubyValue) : Prop :=
  ∀ u, Crossed h v u → shareable h u = false → Renewable h u ∧
    ∀ addr, u = .hash addr → KeysFrozen h addr

/-- In every hash that is made anew the keys are told apart: none was changed since it was stored so
that it is equal to another. -/
def HashesApart (rt : Runtime im) (h : Heap im) (v : RubyValue) : Prop :=
  ∀ addr, Crossed h v (.hash addr) → shareable h (.hash addr) = false → KeysApart rt h addr

/-- What passes by reference is frozen all through. -/
def SharedFrozen (v : RubyValue) : Prop :=
  ∀ u, Crossed h v u → shareable h u = true → ∀ w, (graphOf h).Reach u w → unfrozen h w = false

section SameCell

variable {h h' : Heap im} {v : RubyValue} (same : ∀ addr ∈ targetOf v, h'.cell addr = h.cell addr)

include same

theorem shapeOf_eq : shapeOf h' v = shapeOf h v := by
  cases v with
  | str s =>
    cases s with
    | shared addr => simp only [shapeOf, str, body, same addr rfl]
    | frozenCopy n buf => rfl
  | hash addr => simp only [shapeOf, table, body, same addr rfl]
  | range addr => simp only [shapeOf, Heap.range, Heap.body, same addr rfl]
  | object addr => simp only [shapeOf, object, body, same addr rfl]
  | _ => rfl

theorem storedEdges_eq : storedEdges h' v = storedEdges h v := by
  cases v with
  | array addr => simp only [storedEdges, elems, body, same addr rfl]
  | hash addr => simp only [storedEdges, pairValues, table, body, same addr rfl]
  | range addr => simp only [storedEdges, rangeEnds, Heap.range, Heap.body, same addr rfl]
  | object addr => simp only [storedEdges, object, body, same addr rfl]
  | _ => rfl

theorem flagOf_eq : flagOf h' v = flagOf h v := by
  cases v with
  | str s =>
    cases s with
    | shared addr => simp only [flagOf, strFrozen, frozen, same addr rfl]
    | frozenCopy n buf => rfl
  | array addr | hash addr | object addr => simp only [flagOf, frozen, same addr rfl]
  | _ => rfl

theorem besideOf_eq : besideOf h' v = besideOf h v := by
  cases v with
  | str s =>
    cases s with
    | shared addr => simp only [besideOf, sideIvars, same addr rfl]
    | frozenCopy n buf => rfl
  | array addr | hash addr | object addr => simp only [besideOf, sideIvars, same addr rfl]
  | _ => rfl

end SameCell

variable {u v : RubyValue}

section Grown

variable {origin h : Heap im} (grown : Extends origin h) (formed : WellFormed origin)

include grown in
theorem Extends.same (inside : Inside origin v) :
    ∀ addr ∈ targetOf v, h.cell addr = origin.cell addr :=
  fun addr target => grown.cells addr (inside.lt_next target)

include grown in
theorem Extends.label (inside : Inside origin v) :
    (graphOf h).label v = (graphOf origin).label v := by
  have same := grown.same inside
  simp only [graphOf, shapeOf_eq same, flagOf_eq same, besideOf_eq same]

include grown in
theorem Extends.succ (inside : Inside origin v) :
    (graphOf h).succ v = (graphOf origin).succ v := by
  have same := grown.same inside
  simp only [graphOf, storedEdges_eq same, besideOf_eq same]

include formed

theorem succ_inside : ∀ e ∈ (graphOf origin).succ v, Inside origin e := by
  intro e mem
  rcases mem_append.mp mem with stored | beside
  · exact storedEdges_inside formed v e stored
  · cases v with
    | str s =>
      cases s with
      | shared addr => exact formed.side addr e beside
      | frozenCopy n buf => cases beside
    | array addr | hash addr | object addr => exact formed.side addr e beside
    | _ => cases beside

theorem reach_inside (inside : Inside origin v)
    (reach : (graphOf origin).Reach v u) : Inside origin u := by
  induction reach with
  | refl => exact inside
  | tail _ edge _ => exact succ_inside formed _ edge

include grown

theorem Extends.reach (inside : Inside origin v)
    (reach : (graphOf origin).Reach v u) : (graphOf h).Reach v u := by
  induction reach with
  | refl => exact .refl
  | @tail b c before edge ih =>
    refine ih.tail ?_
    rw [grown.succ (reach_inside formed inside before)]
    exact edge

end Grown

theorem Ordinary.crossedEdges {h : Heap im} (ordinary : Ordinary h u) :
    Ractor.crossedEdges h u = storedEdges h u := by
  cases u with
  | object addr =>
    obtain ⟨_, _, members, _⟩ := ordinary
    simp only [Ractor.crossedEdges, storedEdges, members, append_nil]
  | _ => rfl

theorem Crossed.reach {h : Heap im} (crossed : Crossed h v u) :
    (graphOf h).Reach v u := by
  induction crossed with
  | refl => exact .refl
  | tail _ edge ih =>
    exact ih.tail (mem_append_left _ (crossedEdges_stored _ edge.2))

section Copied

variable {h : Heap im} {st : CrossState im} {u u' : RubyValue} {v out : Option RubyValue}

theorem standsOption_isSome (stands : StandsOption h st v out) :
    out.isSome = v.isSome := by
  cases stands <;> rfl

theorem standsOption_toList (stands : StandsOption h st v out) :
    List.Forall₂ (Stands h st) v.toList out.toList := by
  cases stands with
  | none => exact .nil
  | some stands => exact .cons stands .nil

/-- The pairs of a hash are as many as those of its copy. -/
def SameCount (h : Heap im) (st : CrossState im) (u u' : RubyValue) : Prop :=
  ∀ a b, u = .hash a → u' = .hash b →
    (hashPairsSnapshot (st.heap.table b)).length = (hashPairsSnapshot (h.table a)).length

section

variable (complete : Complete h st u u')

include complete

theorem Complete.beside : besideOf st.heap u' = [] := by
  cases complete with
  | str there | array there _ | hash there _ _ _ _ | object there _ _ _ _ _ =>
    exact sideIvars_of_cell there

theorem Complete.shape (count : SameCount h st u u') :
    shapeOf h u = shapeOf st.heap u' := by
  cases complete with
  | str there => simp only [shapeOf, str_of_cell there]
  | array there _ => rfl
  | @hash a b data there mode pairs _ proc =>
    have same := count a b rfl rfl
    have procs := standsOption_isSome proc
    simp only [shapeOf, ← same, table_of_cell there, mode, procs]
  | @object a b data there type cls members ivars payload =>
    have names : (h.object a).ivars.map (·.1) = data.ivars.map (·.1) := by
      rw [← forall₂_eq_eq_eq, forall₂_map_left_iff, forall₂_map_right_iff]
      exact ivars.imp fun _ _ both => both.1
    have payloads := standsOption_isSome payload
    simp only [shapeOf, object_of_cell there, type, cls, members, names, payloads]

theorem Complete.label (renewable : Renewable h u) (count : SameCount h st u u') :
    (graphOf h).label u = (graphOf st.heap).label u' := by
  obtain ⟨beside, flag⟩ := renewable
  have flags : flagOf h u = flagOf st.heap u' := by
    cases complete with
    | str there | array there _ | hash there _ _ _ _ =>
      exact (flag.resolve_left fun ⟨_, same⟩ => by cases same).trans (frozen_of_cell there).symm
    | object there _ _ _ _ _ => exact (frozen_of_cell there).symm
  simp only [graphOf, complete.shape count, flags, beside, complete.beside]

/-- A copy that shows what its source shows has lost nothing. -/
theorem Complete.renewable (label : (graphOf h).label u = (graphOf st.heap).label u') :
    Renewable h u ∧ SameCount h st u u' := by
  have none : ∀ ivars : Fields, ivars.map (·.1) = [] → ivars = [] :=
    fun _ empty => map_eq_nil_iff.mp empty
  cases complete with
  | @str a b there =>
    simp only [graphOf, flagOf, besideOf, strFrozen, frozen_of_cell there,
      sideIvars_of_cell there, Label.mk.injEq] at label
    exact ⟨⟨none _ label.2.2, .inr label.2.1⟩, fun _ _ same => by cases same⟩
  | @array a b outs there _ =>
    simp only [graphOf, flagOf, besideOf, frozen_of_cell there, sideIvars_of_cell there,
      Label.mk.injEq] at label
    exact ⟨⟨none _ label.2.2, .inr label.2.1⟩, fun _ _ same => by cases same⟩
  | @hash a b data there _ _ _ _ =>
    simp only [graphOf, shapeOf, flagOf, besideOf, frozen_of_cell there, sideIvars_of_cell there,
      Label.mk.injEq, Shape.hash.injEq] at label
    refine ⟨⟨none _ label.2.2, .inr label.2.1⟩, fun _ _ same same' => ?_⟩
    cases same
    cases same'
    exact label.1.1.symm
  | @object a b data there _ _ _ _ _ =>
    simp only [graphOf, besideOf, sideIvars_of_cell there, Label.mk.injEq] at label
    exact ⟨⟨none _ label.2.2, .inl ⟨a, rfl⟩⟩, fun _ _ same => by cases same⟩

end

/-- What the copy of a node holds in the place of a value: what stands for it, the frozen copy of a
string key, or the value itself for a member of a Struct. -/
inductive Takes (h : Heap im) (st : CrossState im) (u e e' : RubyValue) : Prop
  | stands : e ∈ crossedEdges h u → Stands h st e e' → Takes h st u e e'
  | copied {addr a n : Addr} : u = .hash addr → (h.table addr).compareByIdentity = false →
    e ∈ (hashPairsSnapshot (h.table addr)).map (·.1) → e = .str (.shared a) → h.frozen a = false →
    e' = .str (.frozenCopy n (h.str a)) → Takes h st u e e'
  | member {addr : Addr} : u = .object addr → e ∈ (h.object addr).members → e' = e →
    Takes h st u e e'

theorem pairs_take {addr : Addr} {pairs outs : Pairs}
    (listed : pairs ⊆ hashPairsSnapshot (h.table addr))
    (ordered : List.Forall₂ (fun pair out =>
      StandsKey h st (h.table addr).compareByIdentity pair.1 out.1 ∧ Stands h st pair.2 out.2)
      pairs outs) :
    List.Forall₂ (fun pair out => Takes h st (.hash addr) pair.1 out.1 ∧
      Takes h st (.hash addr) pair.2 out.2) pairs outs := by
  have edge : ∀ pair ∈ pairs, ∀ e ∈ [pair.1, pair.2], e ∈ crossedEdges h (.hash addr) :=
    fun pair mem e here =>
      mem_append_left _ (mem_flatMap.mpr ⟨pair, listed mem, here⟩)
  refine ((forall₂_and_left _ _).mpr ⟨fun pair mem => mem, ordered⟩).imp ?_
  rintro ⟨key, value⟩ ⟨outKey, outValue⟩ ⟨mem, standsKey, standsValue⟩
  refine ⟨?_, .stands (edge _ mem _ (by simp)) standsValue⟩
  have here := edge _ mem key (by simp)
  generalize mode : (h.table addr).compareByIdentity = byIdentity at standsKey
  cases standsKey with
  | same stands _ => exact .stands here stands
  | copied structured thawed =>
    exact .copied rfl (mode.trans structured) (mem_map_of_mem (listed mem)) rfl thawed rfl

theorem Complete.takes (complete : Complete h st u u') (count : SameCount h st u u') :
    List.Forall₂ (Takes h st u) (storedEdges h u) (storedEdges st.heap u') := by
  have standing : ∀ {es es' : List RubyValue}, es ⊆ crossedEdges h u →
      List.Forall₂ (Stands h st) es es' → List.Forall₂ (Takes h st u) es es' :=
    fun within stands => ((forall₂_and_left _ _).mpr ⟨within, stands⟩).imp
      fun _ _ both => .stands both.1 both.2
  cases complete with
  | str there => exact .nil
  | @array a b outs there elems =>
    simp only [storedEdges, elems_of_cell there]
    exact standing (List.Subset.refl _) elems
  | @hash a b data there mode pairs default proc =>
    have same := count a b rfl rfl
    rw [table_of_cell there] at same
    have ordered := pairs_take (List.Subset.refl _) (pairs.inOrder same)
    simp only [storedEdges, pairValues, table_of_cell there]
    exact rel_append (forall₂_flatPairs ordered) (standing (subset_append_right _ _)
      (.cons default (standsOption_toList proc)))
  | @object a b data there type cls members ivars payload =>
    simp only [storedEdges, object_of_cell there, members]
    refine rel_append (rel_append ?_ ?_) ?_
    · refine standing (subset_append_left _ _) ?_
      rw [forall₂_map_left_iff, forall₂_map_right_iff]
      exact ivars.imp fun _ _ both => both.2
    · exact forall₂_same.mpr fun e mem => .member rfl mem rfl
    · exact standing (subset_append_right _ _) (standsOption_toList payload)

/-- A copy with nothing lost leads to what stands for what its source leads to. -/
theorem Complete.stored (complete : Complete h st u u') (ordinary : Ordinary h u)
    (count : SameCount h st u u') (keys : ∀ addr, u = .hash addr → KeysFrozen h addr) :
    List.Forall₂ (Stands h st) (storedEdges h u) (storedEdges st.heap u') := by
  refine (complete.takes count).imp fun e e' takes => ?_
  cases takes with
  | stands _ stands => exact stands
  | copied hash structured mem text thawed _ =>
    rcases keys _ hash with identity | frozen
    · rw [structured] at identity
      cases identity
    · rw [frozen _ mem _ text] at thawed
      cases thawed
  | member object mem _ =>
    subst object
    rw [ordinary.2.2.1] at mem
    cases mem

section Partners

variable {related : RubyValue → RubyValue → Prop} {rest rest' : List RubyValue} {e : RubyValue}
  (complete : Complete h st u u') (count : SameCount h st u u')
  (succ : List.Forall₂ related (storedEdges h u ++ rest) (storedEdges st.heap u' ++ rest'))

include complete succ

/-- A key is related to the form in which the copy stores it. -/
theorem Complete.key_partner {a : Addr} (hash : u = .hash a) (count : SameCount h st u u')
    (mem : e ∈ hashKeys (h.table a)) :
    ∃ e', related e e' ∧ StandsKey h st (h.table a).compareByIdentity e e' := by
  subst hash
  cases complete with
  | @hash _ b data there mode pairs default proc =>
    have same := count a b rfl rfl
    simp only [storedEdges, append_assoc] at succ
    have perPair := forall₂_ofFlat same succ
    rw [table_of_cell there] at perPair same
    rw [← append_nil (hashPairsSnapshot _), ← append_nil (hashPairsSnapshot data)] at perPair
    obtain ⟨pair, listed, rfl⟩ := mem_map.mp mem
    obtain ⟨out, _, ⟨partner, _⟩, standsKey, _⟩ :=
      forall₂_meets (forall₂_both perPair (pairs.inOrder same)) listed
    exact ⟨out.1, partner, standsKey⟩

include count

/-- What a node leads to is related to what stands for it, or to the frozen copy of a string key. -/
theorem Complete.edge_partner (edge : e ∈ crossedEdges h u) :
    ∃ e', related e e' ∧ (Stands h st e e' ∨
      ∃ a n, e = .str (.shared a) ∧ h.frozen a = false ∧ e' = .str (.frozenCopy n (h.str a))) := by
  have taken := complete.takes count
  cases complete with
  | str there => cases edge
  | array there elems =>
    obtain ⟨e', _, partner, stands⟩ := forall₂_meets
      (forall₂_both succ (by simpa only [storedEdges, elems_of_cell there] using elems)) edge
    exact ⟨e', partner, .inl stands⟩
  | hash there _ _ _ _ =>
    obtain ⟨e', _, partner, takes⟩ := forall₂_meets (forall₂_both succ taken) edge
    refine ⟨e', partner, ?_⟩
    cases takes with
    | stands _ stands => exact .inl stands
    | copied _ _ _ text thawed same => exact .inr ⟨_, _, text, thawed, same⟩
    | member object _ _ => cases object
  | @object a b data there type cls members ivars payload =>
    simp only [storedEdges, object_of_cell there, members, append_assoc] at succ
    have lengths := ivars.length_eq
    rcases mem_append.mp edge with listed | wrapped
    · have stands : List.Forall₂ (Stands h st) ((h.object a).ivars.map (·.2))
          (data.ivars.map (·.2)) := by
        rw [forall₂_map_left_iff, forall₂_map_right_iff]
        exact ivars.imp fun _ _ both => both.2
      obtain ⟨e', _, partner, stands⟩ := forall₂_meets (forall₂_both succ stands) listed
      exact ⟨e', partner, .inl stands⟩
    · have behind := forall₂_behind rfl (forall₂_behind (by simpa using lengths) succ)
      obtain ⟨e', _, partner, stands⟩ := forall₂_meets
        (forall₂_both behind (standsOption_toList payload)) wrapped
      exact ⟨e', partner, .inl stands⟩

omit count

theorem Complete.member_partner {a : Addr} (object : u = .object a)
    (mem : e ∈ (h.object a).members) : related e e := by
  subst object
  cases complete with
  | @object _ b data there type cls members ivars payload =>
    simp only [storedEdges, object_of_cell there, members, append_assoc] at succ
    have behind := forall₂_behind (by simpa using ivars.length_eq) succ
    obtain ⟨e', _, partner, rfl⟩ := forall₂_meets
      (forall₂_both behind (forall₂_same.mpr fun _ _ => rfl : List.Forall₂ Eq _ _)) mem
    exact partner

end Partners

/-- In a hash whose copy is related to it node by node, string keys are frozen. -/
theorem Complete.keysFrozen {a : Addr} (complete : Complete h st (.hash a) u')
    (count : SameCount h st (.hash a) u') {related : RubyValue → RubyValue → Prop}
    (labels : ∀ n n', related n n' → (graphOf h).label n = (graphOf st.heap).label n')
    (succ : List.Forall₂ related ((graphOf h).succ (.hash a)) ((graphOf st.heap).succ u')) :
    KeysFrozen h a := by
  cases identity : (h.table a).compareByIdentity with
  | true => exact .inl identity
  | false =>
    refine .inr fun key mem addr text => ?_
    obtain ⟨out, partner, standsKey⟩ := complete.key_partner succ rfl count mem
    rw [identity] at standsKey
    subst text
    cases standsKey with
    | same _ kept => exact kept.resolve_left Bool.false_ne_true addr rfl
    | copied _ thawed =>
      have label := labels _ _ partner
      simp only [graphOf, Label.mk.injEq] at label
      exact label.2.1

end Copied

section Whole

variable {h : Heap im} {v out : RubyValue} {st : CrossState im}

def Behind (h : Heap im) (v u : RubyValue) : Prop :=
  ∃ c, Crossed h v c ∧ shareable h c = true ∧ (graphOf h).Reach c u

def Paired (h : Heap im) (v : RubyValue) (st : CrossState im) (u u' : RubyValue) : Prop :=
  u' = u ∧ Behind h v u ∨ Crossed h v u ∧ (u, u') ∈ st.built

theorem Ordinary.shareable_of_frozen (ordinary : Ordinary h u)
    (frozen : unfrozen h u = false) (live : passes h u = false) : shareable h u = true := by
  unfold unfrozen changeable at frozen
  unfold passes at live
  rw [Bool.or_eq_false_iff] at live
  rw [live.1] at frozen
  cases u with
  | str s | array a | hash a | object a => simp [live.2] at frozen
  | _ => exact ordinary.2.1

theorem Tested.reach {w : RubyValue} (ordinary : OrdinaryGraph h u) (tested : Tested h u w) :
    (graphOf h).Reach u w := by
  induction tested with
  | refl => exact .refl
  | @tail b c _ edge ih =>
    change c ∈ testedEdges h b at edge
    unfold testedEdges at edge
    split at edge
    · cases edge
    · rcases walkedEdges_stored edge with stored | ⟨addr, rfl, listed⟩
      · exact ih.tail (mem_append_left _ stored)
      · rw [(ordinary _ ih).2.2.2.2] at listed
        cases listed

variable (formed : WellFormed h) (inside : Inside h v) (ordinary : OrdinaryGraph h v)

include formed inside ordinary in
theorem shareable_of_deep (reached : (graphOf h).Reach v u)
    (frozen : ∀ w, (graphOf h).Reach u w → unfrozen h w = false) : shareable h u = true := by
  have there := reach_inside formed inside reached
  refine (shareable_iff formed there).mpr fun w tested => ?_
  have reach := tested.reach fun w further => ordinary w (reached.trans further)
  by_contra failed
  have refused : passes h w = false := by simpa using failed
  have shared := (ordinary w (reached.trans reach)).shareable_of_frozen (frozen w reach) refused
  have passed := (shareable_iff formed (reach_inside formed there reach)).mp shared w .refl
  rw [refused] at passed
  cases passed

variable {rt : Runtime im} (inv : Inv rt h v [] st) (stands : Stands h st v out) {u' : RubyValue}

include ordinary in
theorem stands_cases (crossed : Crossed h v u) (stands : Stands h st u u') :
    shareable h u = true ∧ u' = u ∨ (u, u') ∈ st.built := by
  cases stands with
  | shared passed => exact .inl ⟨passed, rfl⟩
  | built mem => exact .inr mem
  | @range a b start finish excl refused _ _ _ _ _ =>
    have passed := (ordinary _ crossed.reach).2.1
    rw [passed] at refused
    cases refused

include inv in
theorem built_young {e : RubyValue × RubyValue} (mem : e ∈ st.built) : ¬Inside h e.2 := by
  intro old
  obtain ⟨b, _, _, target, young, _⟩ := (inv.entry e mem).placed
  exact Nat.not_lt.mpr young (old.lt_next target)

include inv in
/-- With settled keys, no pair is lost in a copy exactly if the keys are told apart. -/
theorem sameCount_iff (lawful : im.Lawful) (settled : KeysSettled rt h v) {a b : Addr}
    (mem : (.hash a, .hash b) ∈ st.built) :
    SameCount h st (.hash a) (.hash b) ↔ KeysApart rt h a := by
  rw [← inv.told settled a b mem not_mem_nil, ← length_map (·.2),
    ← hashPairsSnapshot_rows lawful, hashKeys, length_map]
  exact ⟨fun count => count a b rfl rfl, fun same _ _ here there => by cases here; cases there; exact same⟩

include inv in
theorem sameCount_of_apart (lawful : im.Lawful) (settled : KeysSettled rt h v)
    (apart : HashesApart rt h v) (mem : (u, u') ∈ st.built) : SameCount h st u u' := by
  rintro a b rfl rfl
  have entry := inv.entry _ mem
  exact (sameCount_iff inv lawful settled mem).mpr (apart a entry.reached entry.refused) a b rfl rfl

section Sufficient

variable (nodes : NodesKept h v) (counts : ∀ u u', (u, u') ∈ st.built → SameCount h st u u')
  (shared : SharedFrozen h v)

include formed inside ordinary shared in
theorem Behind.shareable (behind : Behind h v u) : shareable h u = true := by
  obtain ⟨c, crossed, passed, reach⟩ := behind
  exact shareable_of_deep formed inside ordinary (crossed.reach.trans reach)
    fun w further => shared c crossed passed w (reach.trans further)

include formed inside in
theorem Behind.within (behind : Behind h v u) : Inside h u := by
  obtain ⟨c, crossed, _, reach⟩ := behind
  exact reach_inside formed inside (crossed.reach.trans reach)

include formed inside ordinary shared inv in
theorem paired_oneToOne : Relator.BiUnique (Paired h v st) := by
  have apart : ∀ u u', Behind h v u → (u, u') ∈ st.built → False := by
    intro u u' behind mem
    have passed := behind.shareable formed inside ordinary shared
    have refused := (inv.entry _ mem).refused
    rw [passed] at refused
    cases refused
  constructor
  · rintro a b c (⟨rfl, behind⟩ | ⟨_, mem⟩) (⟨same, behind'⟩ | ⟨_, member'⟩)
    · exact same
    · exact absurd (behind.within formed inside) (built_young inv member')
    · subst same
      exact absurd (behind'.within formed inside) (built_young inv mem)
    · exact congrArg Prod.fst (inv.same_entry mem member' rfl)
  · rintro a b c (⟨rfl, behind⟩ | ⟨_, mem⟩) (⟨rfl, _⟩ | ⟨_, member'⟩)
    · rfl
    · exact absurd member' (apart _ _ behind)
    · rename_i behind
      exact absurd mem (apart _ _ behind)
    · exact congrArg Prod.snd (inj_on_of_nodup_map inv.keys mem member' rfl)

include formed inside ordinary shared inv nodes counts in
theorem paired_matches : (graphOf h).Matches (graphOf st.heap) (Paired h v st) := by
  have facts : ∀ u u', Crossed h v u → (u, u') ∈ st.built → Complete h st u u' ∧ Renewable h u ∧
      SameCount h st u u' ∧ ∀ addr, u = .hash addr → KeysFrozen h addr := by
    intro u u' crossed mem
    have kept := nodes u crossed (inv.entry _ mem).refused
    exact ⟨inv.complete _ mem not_mem_nil, kept.1, counts u u' mem, kept.2⟩
  refine ⟨⟨?_, ?_⟩, paired_oneToOne formed inside ordinary inv shared⟩
  · rintro u u' (⟨rfl, behind⟩ | ⟨crossed, mem⟩)
    · exact (inv.grown.label (behind.within formed inside)).symm
    · obtain ⟨complete, renewable, count, _⟩ := facts u u' crossed mem
      exact complete.label renewable count
  · rintro u u' (⟨rfl, behind⟩ | ⟨crossed, mem⟩)
    · rw [inv.grown.succ (behind.within formed inside)]
      refine forall₂_same.mpr fun e edge => .inl ⟨rfl, ?_⟩
      obtain ⟨c, crossed, passed, reach⟩ := behind
      exact ⟨c, crossed, passed, reach.tail edge⟩
    · obtain ⟨complete, renewable, count, keys⟩ := facts u u' crossed mem
      have stored := complete.stored (ordinary u crossed.reach) count keys
      have refused := (inv.entry _ mem).refused
      have followed := (ordinary u crossed.reach).crossedEdges
      change List.Forall₂ _ (storedEdges h u ++ _) (storedEdges st.heap u' ++ _)
      rw [renewable.1, complete.beside]
      refine rel_append ?_ .nil
      refine ((forall₂_and_left _ _).mpr ⟨fun e edge => edge, stored⟩).imp ?_
      rintro e e' ⟨edge, standing⟩
      have further : Crossed h v e := crossed.tail ⟨refused, followed ▸ edge⟩
      rcases stands_cases ordinary further standing with ⟨passed, rfl⟩ | mem
      · exact .inl ⟨rfl, e', further, passed, .refl⟩
      · exact .inr ⟨further, mem⟩

include formed inside shared inv in
theorem paired_apart (matched : (graphOf h).Matches (graphOf st.heap) (Paired h v st))
    (roots : Paired h v st v out) : Apart h v st.heap out := by
  intro u reach reach'
  obtain ⟨n, ⟨rfl, c, crossed, passed, further⟩ | ⟨_, mem⟩⟩ := matched.met roots reach'
  · exact shared c crossed passed u further
  · exact absurd (reach_inside formed inside reach) (built_young inv mem)

end Sufficient

section Necessary

variable {related : RubyValue → RubyValue → Prop} (roots : related v out)
  (matched : (graphOf h).Matches (graphOf st.heap) related)

include matched in
/-- A copy that is related to its source node by node has lost nothing. -/
theorem Complete.kept (complete : Complete h st u u') (pair : related u u') :
    Renewable h u ∧ SameCount h st u u' ∧ ∀ addr, u = .hash addr → KeysFrozen h addr := by
  obtain ⟨renewable, count⟩ := complete.renewable (matched.label u u' pair)
  refine ⟨renewable, count, ?_⟩
  rintro addr rfl
  exact complete.keysFrozen count matched.label (matched.succ _ _ pair)

include ordinary inv stands roots matched in
theorem crossed_partner (crossed : Crossed h v u) :
    ∃ u', related u u' ∧ Stands h st u u' ∧ (graphOf st.heap).Reach out u' := by
  induction crossed with
  | refl => exact ⟨out, roots, stands, .refl⟩
  | @tail b c before edge ih =>
    obtain ⟨b', pair, standing, reach⟩ := ih
    obtain ⟨refused, edge⟩ := edge
    rcases stands_cases ordinary before standing with ⟨passed, _⟩ | mem
    · rw [refused] at passed
      cases passed
    · have complete := inv.complete _ mem not_mem_nil
      obtain ⟨_, count, keys⟩ := complete.kept matched pair
      have stored := complete.stored (ordinary b (Crossed.reach before)) count keys
      have both := forall₂_both (matched.succ b b' pair) stored
      obtain ⟨c', there, pair', standing'⟩ := forall₂_meets both (crossedEdges_stored b edge)
      exact ⟨c', pair', standing', reach.tail (mem_append_left _ there)⟩

include ordinary inv stands roots matched in
theorem crossed_kept (crossed : Crossed h v u) (refused : shareable h u = false) :
    Renewable h u ∧ (∀ addr, u = .hash addr → KeysFrozen h addr) ∧
      ∃ u', (u, u') ∈ st.built ∧ SameCount h st u u' := by
  obtain ⟨u', pair, standing, _⟩ := crossed_partner ordinary inv stands roots matched crossed
  rcases stands_cases ordinary crossed standing with ⟨passed, _⟩ | mem
  · rw [refused] at passed
    cases passed
  · have complete := inv.complete _ mem not_mem_nil
    obtain ⟨renewable, count, keys⟩ := complete.kept matched pair
    exact ⟨renewable, keys, u', mem, count⟩

include formed inside ordinary inv stands roots matched in
theorem shared_common {w : RubyValue} (crossed : Crossed h v u) (passed : shareable h u = true)
    (reach : (graphOf h).Reach u w) : (graphOf st.heap).Reach out w := by
  obtain ⟨u', _, standing, reached⟩ := crossed_partner ordinary inv stands roots matched crossed
  rcases stands_cases ordinary crossed standing with ⟨_, rfl⟩ | mem
  · have there := reach_inside formed inside crossed.reach
    exact reached.trans (inv.grown.reach formed there reach)
  · have refused := (inv.entry _ mem).refused
    rw [passed] at refused
    cases refused

end Necessary

end Whole

def bareRuntime : Runtime plainMap where
  world _ := plainWorld
  display _ _ := ""
  className _ _ := ""
  isIoClass _ := false

def textAndList (elems : List RubyValue) (frozen : Bool) : Heap plainMap :=
  ((empty.alloc ⟨.str ⟨[97], Enc.utf8⟩, false, false, []⟩).2.alloc
    ⟨.array elems, frozen, false, []⟩).2

section

variable {elems : List RubyValue} {frozen : Bool}

theorem textAndList_body {addr : Addr} {body : Body plainMap}
    (there : (textAndList elems frozen).body addr = some body) :
    addr = 0 ∧ body = .str ⟨[97], Enc.utf8⟩ ∨ addr = 1 ∧ body = .array elems := by
  change Option.map _ (if addr = 1 then some _ else if addr = 0 then some _ else none) = some body
    at there
  split at there
  · cases there
    exact .inr ⟨by assumption, rfl⟩
  · split at there
    · cases there
      exact .inl ⟨by assumption, rfl⟩
    · cases there

theorem textAndList_side (addr : Addr) : (textAndList elems frozen).sideIvars addr = [] := by
  change (Option.map _ (if addr = 1 then some _ else if addr = 0 then some _ else none)).getD [] = []
  split
  · rfl
  · split <;> rfl

theorem textAndList_inside (one : u = .str (.shared 0) ∨ u = .array 1) :
    Inside (textAndList elems frozen) u := by
  rcases one with rfl | rfl
  · rintro addr ⟨⟩
    exact ⟨_, rfl, rfl⟩
  · rintro addr ⟨⟩
    exact ⟨_, rfl, rfl⟩

variable (known : ∀ e ∈ elems, e = .str (.shared 0) ∨ e = .array 1)

include known

theorem textAndList_wellFormed : WellFormed (textAndList elems frozen) := by
  refine ⟨fun addr body there u mem => ?_, fun addr u mem => ?_,
    fun addr start finish excl there => ?_⟩
  · rcases textAndList_body there with ⟨_, rfl⟩ | ⟨_, rfl⟩
    · cases mem
    · exact textAndList_inside (known u mem)
  · rw [textAndList_side] at mem
    cases mem
  · rcases textAndList_body there with ⟨_, same⟩ | ⟨_, same⟩ <;> cases same

theorem textAndList_reach
    (reach : (graphOf (textAndList elems frozen)).Reach (.array 1) u) :
    u = .str (.shared 0) ∨ u = .array 1 := by
  induction reach with
  | refl => exact .inr rfl
  | @tail b c _ edge ih =>
    rcases ih with rfl | rfl
    · cases edge
    · change c ∈ elems ++ [] at edge
      rw [append_nil] at edge
      exact known c edge

theorem textAndList_ordinary : OrdinaryGraph (textAndList elems frozen) (.array 1) := by
  intro u reach
  rcases textAndList_reach known reach with rfl | rfl
  · exact ⟨rfl, trivial⟩
  · exact ⟨rfl, trivial⟩

end

/-- A frozen string, a string, an array that holds the string twice, itself and a hash, the hash with
the frozen string and a number for keys, and a frozen object with the hash in a variable. -/
def messageHeap : Heap plainMap :=
  let h := (empty.alloc ⟨.str ⟨[0x6b], Enc.utf8⟩, true, false, []⟩).2
  let h := (h.alloc ⟨.str ⟨[0x61], Enc.utf8⟩, false, false, []⟩).2
  let h := (h.alloc ⟨.array [.str (.shared 1), .str (.shared 1), .array 2, .hash 3], false, false, []⟩).2
  let data : RHashData plainMap := RHashData.new (.array 2)
  let rows := { data with
    repr := .small [(HashKey.str [0x6b] 0, (.str (.shared 0), .array 2)),
      (HashKey.bool true, (.bool true, .str (.shared 1)))] }
  let h := (h.alloc ⟨.hash rows, false, false, []⟩).2
  (h.alloc ⟨.object ⟨⟨false, true, true⟩, 200, [("x", .hash 3)], by decide, none, [], none⟩, true,
    false, []⟩).2

def messageNodes : List RubyValue :=
  [.object 4, .hash 3, .array 2, .str (.shared 1), .str (.shared 0), .bool true]

/-- A list of nodes that no edge leaves holds all that is reached. -/
theorem reach_mem {h : Heap im} {nodes : List RubyValue} (root : v ∈ nodes)
    (closed : ∀ n ∈ nodes, ∀ e ∈ (graphOf h).succ n, e ∈ nodes) (reach : (graphOf h).Reach v u) :
    u ∈ nodes := by
  induction reach with
  | refl => exact root
  | tail _ edge ih => exact closed _ ih _ edge

theorem messageHeap_wellFormed : WellFormed messageHeap :=
  wellFormed_of_below (by decide) (by decide) (by decide)

theorem messageHeap_nodes (crossed : Crossed messageHeap (.object 4) u) : u = .object 4 ∨
    u = .hash 3 ∨ u = .array 2 ∨ u = .str (.shared 1) ∨ u = .str (.shared 0) ∨ u = .bool true := by
  have known : u ∈ messageNodes := reach_mem (by decide) (by decide) crossed.reach
  simpa [messageNodes] using known

theorem messageHeap_settled : KeysSettled bareRuntime messageHeap (.object 4) := by
  intro addr crossed _ key mem
  obtain rfl : addr = 3 := by simpa using messageHeap_nodes crossed
  change key ∈ [.str (.shared 0), .bool true] at mem
  simp only [mem_cons, not_mem_nil, or_false] at mem
  rcases mem with rfl | rfl
  · exact .text rfl rfl
  · exact .reference rfl (fun _ _ => rfl) (fun _ same => by cases same)

theorem messageHeap_apart : HashesApart bareRuntime messageHeap (.object 4) := by
  intro addr crossed _
  obtain rfl : addr = 3 := by simpa using messageHeap_nodes crossed
  refine .cons (fun other mem => ?_) (.cons (fun _ none => absurd none not_mem_nil) .nil)
  rintro k k' ⟨⟩ here
  cases mem_singleton.mp mem
  cases here
  rfl

/-- What passes by reference leads nowhere. -/
theorem messageHeap_shared {w : RubyValue} (crossed : Crossed messageHeap (.object 4) u)
    (passed : shareable messageHeap u = true) (reach : (graphOf messageHeap).Reach u w) :
    unfrozen messageHeap w = false ∧ shareable messageHeap w = true := by
  have leaves : ∀ u ∈ [.str (.shared 0), .bool true],
      (∀ e ∈ (graphOf messageHeap).succ u, e ∈ [.str (.shared 0), .bool true]) ∧
        unfrozen messageHeap u = false ∧ shareable messageHeap u = true := by decide
  have leaf : u ∈ [.str (.shared 0), .bool true] := by
    rcases messageHeap_nodes crossed with rfl | rfl | rfl | rfl | rfl | rfl
    all_goals first | decide | exact absurd passed (by decide)
  exact (leaves w (reach_mem leaf (fun n mem => (leaves n mem).1) reach)).2

theorem crossGraph_ne_fuel_ring : (crossGraph bareRuntime .move
    (textAndList [.str (.shared 0), .array 1] false) (.array 1)).1 ≠ .error .fuel :=
  crossGraph_ne_fuel (textAndList_wellFormed (by decide)) (listIndexMap_lawful _ _) bareRuntime .move
    (textAndList_inside (.inr rfl))

end Zeo.Ractor
