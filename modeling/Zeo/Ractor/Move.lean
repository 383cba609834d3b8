import Zeo.Ractor.Copy

/-!
# Moved messages

`Port#send` with `move: true` crosses the message first, which poisons every node it has rebuilt,
and then looks for the port. A message that cannot cross leaves the heap as it was but for new
cells. A message that arrives has been poisoned node by node, each node once. What the receiver's
graph shows is what the source showed, unless something was kept beside a node, keys fall together,
or what was emptied is also behind a value that passes by reference.
-/

namespace Zeo.Ractor

open Zeo.Lib Zeo.Value List Heap

variable {eql : UserEql} {im : ValueMap eql}

structure PortQueue where
  items : List RubyValue
  /-- `Port#close` has been called. -/
  closed : Bool
deriving DecidableEq

abbrev Ports := Nat → Option PortQueue

def closedPortError : CrossFail := .refused "Ractor::ClosedError" "The port was already closed"

def Ports.push (ports : Ports) (port : Nat) (v : RubyValue) : Ports := fun p =>
  if p = port then (ports p).map fun q => { q with items := q.items ++ [v] } else ports p

/-- `port_send_in`: the answer, the heap and the ports afterwards. -/
def portSendIn (rt : Runtime im) (h : Heap im) (ports : Ports) (port : Nat) (v : RubyValue)
    (moveIt : Bool) : Except CrossFail Unit × Heap im × Ports :=
  match crossGraph rt (if moveIt then .move else .copy) h v with
  | (.error e, h) => (.error e, h, ports)
  | (.ok crossed, h) =>
    match ports port with
    | some q =>
      if q.closed then (.error closedPortError, h, ports) else (.ok (), h, ports.push port crossed)
    | none => (.error closedPortError, h, ports)

variable {u : RubyValue} {addr : Addr}

theorem poison_other (h : Heap im) (other : targetOf u ≠ some addr) :
    (poison h u).cell addr = h.cell addr := by
  have away : ∀ a, targetOf u = some a → addr ≠ a := by
    rintro a target rfl
    exact other target
  cases u with
  | str s =>
    cases s with
    | shared a => exact if_neg (away a rfl)
    | frozenCopy a buf => rfl
  | array a | hash a => exact if_neg (away a rfl)
  | object a =>
    change (if _ then h.setBody a _ else h).cell addr = _
    split
    · exact if_neg (away a rfl)
    · rfl
  | _ => rfl

/-- What poison makes of a cell depends on nothing else. -/
theorem poison_same {h h' : Heap im} (target : targetOf u = some addr)
    (same : h'.cell addr = h.cell addr) : (poison h' u).cell addr = (poison h u).cell addr := by
  cases u with
  | str s =>
    cases s with
    | shared a =>
      cases target
      simp only [poison, update, str, body, same]
    | frozenCopy a buf => cases target
  | array a =>
    cases target
    simp only [poison, update, same]
  | hash a =>
    cases target
    simp only [poison, update, table, body, same]
  | object a =>
    cases target
    have object : h'.object addr = h.object addr := by simp only [object, body, same]
    change (if (h'.object addr).type.retags then _ else h').cell addr =
      (if (h.object addr).type.retags then _ else h).cell addr
    rw [object]
    split
    · simp only [setBody, update, same]
    · exact same
  | _ => exact same

section Commit

variable {h : Heap im} {moved : List RubyValue}

theorem poisonAll_other (h : Heap im) (other : ∀ u ∈ moved, targetOf u ≠ some addr) :
    (moved.foldl poison h).cell addr = h.cell addr := by
  induction moved generalizing h with
  | nil => rfl
  | cons u moved ih =>
    rw [foldl_cons, ih (poison h u) fun w later => other w (mem_cons_of_mem _ later)]
    exact poison_other h (other u mem_cons_self)

theorem poisonAll_cell (once : moved.Nodup)
    (apart : ∀ u ∈ moved, ∀ w ∈ moved, ∀ addr, targetOf u = some addr → targetOf w = some addr → u = w)
    (mem : u ∈ moved) (target : targetOf u = some addr) :
    (moved.foldl poison h).cell addr = (poison h u).cell addr := by
  obtain ⟨before, after, rfl⟩ := append_of_mem mem
  have distinct := nodup_append.mp once
  have away : ∀ w ∈ before ++ u :: after, w ≠ u → targetOf w ≠ some addr :=
    fun w listed other same => other (apart w listed u mem addr same target)
  have earlier : ∀ w ∈ before, targetOf w ≠ some addr := fun w listed =>
    away w (mem_append_left _ listed) (distinct.2.2 w listed u mem_cons_self)
  have later : ∀ w ∈ after, targetOf w ≠ some addr := fun w listed =>
    away w (mem_append_right _ (mem_cons_of_mem _ listed)) (by
      rintro rfl
      exact (nodup_cons.mp distinct.2.1).1 listed)
  rw [foldl_append, foldl_cons, poisonAll_other _ later]
  exact poison_same target (poisonAll_other h earlier)

end Commit

/-- A node that is rebuilt: it is reached, it is not shareable, and it is no range. -/
def Moved (h : Heap im) (v u : RubyValue) : Prop :=
  Crossed h v u ∧ shareable h u = false ∧ crossIdentity u = some u

/-- What passes by reference: shareable values, and the members of a Struct. -/
def ByReference (h : Heap im) (v c : RubyValue) : Prop :=
  Crossed h v c ∧ shareable h c = true ∨
    ∃ addr, Crossed h v (.object addr) ∧ shareable h (.object addr) = false ∧
      c ∈ (h.object addr).members

/-- The heap as a graph of contents: a node shows whether it is a husk, its kind and the names of what
is kept beside it, but not whether it is frozen. -/
def contentsOf (h : Heap im) : LabelledGraph RubyValue (Bool × Shape × List String) where
  label v := (husk h v, shapeOf h v, (besideOf h v).map (·.1))
  succ := (graphOf h).succ

def Referred (h : Heap im) (v u : RubyValue) : Prop :=
  ∃ c, ByReference h v c ∧ (graphOf h).Reach c u

/-- An object whose class word can change; every other kind can be marked as moved. -/
def Retags (h : Heap im) (u : RubyValue) : Prop :=
  ∀ addr, u = .object addr → (h.object addr).type.retags = true

/-- The gate for moves is armed if some value has been moved. -/
def Gated (h : Heap im) : Prop := ∀ u, valueMoved h u = true → h.anyMoved = true

/-- A message that arrives as it was. -/
structure Movable (rt : Runtime im) (h : Heap im) (v : RubyValue) : Prop where
  /-- Nothing is kept beside a node that is rebuilt. -/
  bare : ∀ u, Moved h v u → besideOf h u = []
  /-- A string key that is stored as a frozen copy is no husk. -/
  live : ∀ addr, Moved h v (.hash addr) → (h.table addr).compareByIdentity = false →
    ∀ a, .str (.shared a) ∈ hashKeys (h.table addr) → h.frozen a = false →
      husk h (.str (.shared a)) = false
  apart : HashesApart rt h v
  /-- Nothing that is emptied is also behind what passes by reference. -/
  references : ∀ u, Referred h v u → Moved h v u → ¬Retags h u

section Walk

variable {h : Heap im} {v out : RubyValue} {st : CrossState im} {e : RubyValue}

theorem standsOption_meets {v out : Option RubyValue} (stands : StandsOption h st v out)
    (mem : e ∈ v.toList) : ∃ e', Stands h st e e' := by
  obtain ⟨e', _, standing⟩ := forall₂_meets (standsOption_toList stands) mem
  exact ⟨e', standing⟩

theorem Complete.edge {u' : RubyValue} (complete : Complete h st u u')
    (edge : e ∈ crossedEdges h u) : ∃ e', Stands h st e e' := by
  cases complete with
  | str there => cases edge
  | array there elems =>
    obtain ⟨e', _, standing⟩ := forall₂_meets elems edge
    exact ⟨e', standing⟩
  | hash there mode pairs default proc =>
    rcases mem_append.mp edge with listed | later
    · obtain ⟨pair, mem, here⟩ := mem_flatMap.mp listed
      obtain ⟨key, value⟩ := pairs.crossed pair mem
      rcases mem_cons.mp here with rfl | here
      · exact key
      · rw [mem_singleton.mp here]
        exact value
    · rcases mem_cons.mp later with rfl | last
      · exact ⟨_, default⟩
      · exact standsOption_meets proc last
  | object there type cls members ivars payload =>
    rcases mem_append.mp edge with listed | wrapped
    · obtain ⟨pair, mem, rfl⟩ := mem_map.mp listed
      obtain ⟨pair', _, _, standing⟩ := forall₂_meets ivars mem
      exact ⟨_, standing⟩
    · exact standsOption_meets payload wrapped

variable {rt : Runtime im} (inv : Inv rt h v [] st) (stands : Stands h st v out) {u : RubyValue}

include inv stands in
theorem crossed_stands (crossed : Crossed h v u) : ∃ u', Stands h st u u' := by
  induction crossed with
  | refl => exact ⟨out, stands⟩
  | @tail b c _ edge ih =>
    obtain ⟨b', standing⟩ := ih
    obtain ⟨refused, edge⟩ := edge
    cases standing with
    | shared passed =>
      rw [refused] at passed
      cases passed
    | built mem => exact (inv.complete _ mem not_mem_nil).edge edge
    | range _ _ _ _ start finish =>
      rcases mem_append.mp edge with first | last
      · exact standsOption_meets start first
      · exact standsOption_meets finish last

include inv stands in
theorem built_iff_moved (u : RubyValue) : u ∈ st.built.map (·.1) ↔ Moved h v u := by
  constructor
  · intro mem
    obtain ⟨e, there, rfl⟩ := mem_map.mp mem
    have entry := inv.entry e there
    exact ⟨entry.reached, entry.refused, entry.identity⟩
  · rintro ⟨crossed, refused, identity⟩
    obtain ⟨u', standing⟩ := crossed_stands inv stands crossed
    cases standing with
    | shared passed =>
      rw [refused] at passed
      cases passed
    | built mem => exact mem_map_of_mem mem
    | range _ _ _ _ _ _ => cases identity

variable {e : RubyValue × RubyValue}

include inv in
theorem built_target (mem : e ∈ st.built) :
    ∃ addr, targetOf e.1 = some addr := by
  obtain ⟨identity, _, _, refused, _, _⟩ := inv.entry e mem
  obtain ⟨u, u'⟩ := e
  cases u with
  | str s =>
    cases s with
    | shared addr => exact ⟨addr, rfl⟩
    | frozenCopy n buf =>
      rw [shareable_str] at refused
      cases (Bool.or_eq_false_iff.mp refused).2
  | array addr | hash addr | object addr => exact ⟨addr, rfl⟩
  | _ => cases identity

end Walk

section Husks

variable {h h' : Heap im} (gated : Gated h)

theorem poison_husk (inside : Inside h u) (target : targetOf u = some addr)
    (identity : crossIdentity u = some u) (retags : Retags h u) (armed : h'.anyMoved = true)
    (same : h'.cell addr = (poison h u).cell addr) :
    husk h' u = true := by
  obtain ⟨body, there, kind⟩ := inside addr target
  obtain ⟨cell, found, rfl⟩ := Option.map_eq_some_iff.mp there
  unfold husk
  rw [armed]
  cases u with
  | str s =>
    cases s with
    | shared a =>
      cases target
      have marked : h'.cell addr = (h.cell addr).map _ := same.trans (if_pos rfl)
      simp only [valueMoved, moved, marked, found]
      rfl
    | frozenCopy a buf => cases target
  | array a | hash a =>
    cases target
    have marked : h'.cell addr = (h.cell addr).map _ := same.trans (if_pos rfl)
    simp only [valueMoved, moved, marked, found]
    rfl
  | object a =>
    cases target
    have word := retags addr rfl
    have marked : (poison h (.object addr)).cell addr =
        (h.setBody addr (.object { h.object addr with cls := movedObjectClass })).cell addr := by
      simp only [poison, word, if_true]
    have object := object_of_cell ((same.trans marked).trans (setBody_cell found _))
    simp only [valueMoved, object]
    rfl
  | _ => cases identity

theorem husk_shareable (formed : WellFormed h) (inside : Inside h u) (gone : husk h u = true) :
    shareable h u = true := by
  refine (shareable_iff formed inside).mpr fun w tested => ?_
  have leaf : testedEdges h u = [] := by
    unfold testedEdges
    rw [if_pos gone]
  have same : w = u := by
    rcases tested.cases_head with same | ⟨c, edge, _⟩
    · exact same.symm
    · change c ∈ testedEdges h u at edge
      rw [leaf] at edge
      cases edge
  subst same
  simp [passes, exempt, gone]

theorem valueMoved_eq (same : ∀ addr ∈ targetOf u, h'.cell addr = h.cell addr) :
    valueMoved h' u = valueMoved h u := by
  cases u with
  | str s =>
    cases s with
    | shared addr => simp only [valueMoved, moved, same addr rfl]
    | frozenCopy n buf => rfl
  | array addr | hash addr => simp only [valueMoved, moved, same addr rfl]
  | object addr => simp only [valueMoved, object, body, same addr rfl]
  | _ => rfl

include gated

theorem husk_eq (armed : h.anyMoved = true → h'.anyMoved = true)
    (same : ∀ addr ∈ targetOf u, h'.cell addr = h.cell addr) : husk h' u = husk h u := by
  unfold husk
  rw [valueMoved_eq same]
  cases gone : valueMoved h u with
  | false => rw [Bool.and_false, Bool.and_false]
  | true => rw [gated u gone, armed (gated u gone)]

theorem Moved.live {v : RubyValue} (formed : WellFormed h) (inside : Inside h u)
    (moved : Moved h v u) : valueMoved h u = false := by
  by_contra gone
  have gone : valueMoved h u = true := by simpa using gone
  have passed := husk_shareable formed inside (by rw [husk, gated u gone, gone]; rfl)
  rw [moved.2.1] at passed
  cases passed

end Husks

section Arrival

/-- A message that stands crossed at the end of the walk, and the heap after the commit. -/
structure Handed (rt : Runtime im) (h : Heap im) (v out : RubyValue) (st : CrossState im)
    (h' : Heap im) : Prop where
  formed : WellFormed h
  inside : Inside h v
  gated : Gated h
  inv : Inv rt h v [] st
  stands : Stands h st v out
  armed : h.anyMoved = true → h'.anyMoved = true
  arms : ∀ u, Moved h v u → h'.anyMoved = true
  young : ∀ addr, h.next ≤ addr → h'.cell addr = st.heap.cell addr
  old : ∀ u, Inside h u → ¬Moved h v u → ∀ addr ∈ targetOf u, h'.cell addr = h.cell addr
  emptied : ∀ u, Moved h v u → ∀ addr ∈ targetOf u, h'.cell addr = (poison h u).cell addr

variable {h h' : Heap im} {v out : RubyValue} {st : CrossState im} {rt : Runtime im}
  (formed : WellFormed h) (inside : Inside h v) (handed : Handed rt h v out st h')

/-- A node and what the receiver has in its place. -/
inductive Delivered (h : Heap im) (v : RubyValue) (st : CrossState im) : RubyValue → RubyValue → Prop
  | reference {u : RubyValue} : Referred h v u → Delivered h v st u u
  | crossed {u u' : RubyValue} : Crossed h v u → Stands h st u u' → Delivered h v st u u'
  | copied {a n : Addr} : husk h (.str (.shared a)) = false → besideOf h (.str (.shared a)) = [] →
    Delivered h v st (.str (.shared a)) (.str (.frozenCopy n (h.str a)))

include formed inside in
theorem crossed_inside (crossed : Crossed h v u) : Inside h u :=
  reach_inside formed inside crossed.reach

include formed inside in
theorem referred_inside (referred : Referred h v u) : Inside h u := by
  obtain ⟨c, byReference, reach⟩ := referred
  refine reach_inside formed ?_ reach
  rcases byReference with ⟨crossed, _⟩ | ⟨addr, _, _, mem⟩
  · exact crossed_inside formed inside crossed
  · exact storedEdges_inside formed (.object addr) c (mem_append_left _ (mem_append_right _ mem))

theorem Referred.shared (crossed : Crossed h v u) (passed : shareable h u = true) :
    Referred h v u := ⟨u, .inl ⟨crossed, passed⟩, .refl⟩

theorem poison_stays (stays : ¬Retags h u) : poison h u = h := by
  unfold Retags at stays
  push Not at stays
  obtain ⟨addr, rfl, fixed⟩ := stays
  simp [poison, fixed]

include handed in
theorem kept_same (within : Inside h u) (stays : Moved h v u → ¬Retags h u) :
    ∀ addr ∈ targetOf u, h'.cell addr = h.cell addr := by
  intro addr target
  by_cases moved : Moved h v u
  · rw [handed.emptied u moved addr target, poison_stays (stays moved)]
  · exact handed.old u within moved addr target

include handed in
theorem label_same (same : ∀ addr ∈ targetOf u, h'.cell addr = h.cell addr) :
    (contentsOf h').label u = (contentsOf h).label u := by
  simp only [contentsOf, husk_eq handed.gated handed.armed same, shapeOf_eq same, besideOf_eq same]

theorem succ_same (same : ∀ addr ∈ targetOf u, h'.cell addr = h.cell addr) :
    (graphOf h').succ u = (graphOf h).succ u := by
  simp only [graphOf, storedEdges_eq same, besideOf_eq same]

variable {u' : RubyValue}

include handed in
theorem copy_same (mem : e ∈ st.built) :
    ∀ addr ∈ targetOf e.2, h'.cell addr = st.heap.cell addr := by
  intro addr target
  obtain ⟨b, _, _, place, fresh, _⟩ := (handed.inv.entry e mem).placed
  cases place.symm.trans target
  exact handed.young addr fresh

include handed in
theorem copy_succ (mem : (u, u') ∈ st.built) :
    (graphOf h').succ u' = storedEdges st.heap u' ++ [] := by
  have same := copy_same handed mem
  change storedEdges h' u' ++ (besideOf h' u').map (·.2) = _
  rw [storedEdges_eq same, besideOf_eq same, (handed.inv.complete _ mem not_mem_nil).beside, map_nil]

include handed in
/-- The copy of a node is no husk and has nothing beside it. -/
theorem copy_label (mem : (u, u') ∈ st.built) :
    (contentsOf h').label u' = (false, shapeOf st.heap u', []) := by
  have same := copy_same handed mem
  have complete := handed.inv.complete _ mem not_mem_nil
  have entry := handed.inv.entry _ mem
  have alive : valueMoved h' u' = false := by
    rw [valueMoved_eq same]
    cases complete with
    | str there | array there _ | hash there _ _ _ _ => simp [valueMoved, moved, there]
    | @object a b data there _ cls _ _ _ =>
      have live := Moved.live handed.gated handed.formed entry.inside
        ⟨entry.reached, entry.refused, entry.identity⟩
      simpa only [valueMoved, object_of_cell there, cls] using live
  simp only [contentsOf, husk, alive, Bool.and_false, shapeOf_eq same, besideOf_eq same,
    complete.beside, map_nil]

include handed in
/-- The receiver's graph shows what the source showed. -/
theorem delivered_keeps (lawful : im.Lawful) (settled : KeysSettled rt h v)
    (movable : Movable rt h v) : (contentsOf h).Keeps (contentsOf h') (Delivered h v st) := by
  have referred (w : RubyValue) (referred : Referred h v w) :
      ∀ addr ∈ targetOf w, h'.cell addr = h.cell addr :=
    kept_same handed (referred_inside handed.formed handed.inside referred)
      (movable.references w referred)
  have further : ∀ w, Referred h v w → ∀ e ∈ (graphOf h).succ w, Delivered h v st e e := by
    rintro w ⟨c, byReference, reach⟩ e edge
    exact .reference ⟨c, byReference, reach.tail edge⟩
  have built {u u' : RubyValue} (mem : (u, u') ∈ st.built) : Moved h v u :=
    ⟨(handed.inv.entry _ mem).reached, (handed.inv.entry _ mem).refused, (handed.inv.entry _ mem).identity⟩
  have counts {u u' : RubyValue} (mem : (u, u') ∈ st.built) : SameCount h st u u' :=
    sameCount_of_apart handed.inv lawful settled movable.apart mem
  have unhusked {u : RubyValue} (moved : Moved h v u) : husk h u = false := by
    have within := crossed_inside handed.formed handed.inside moved.1
    rw [husk, moved.live handed.gated handed.formed within, Bool.and_false]
  refine ⟨fun u u' delivered => ?_, fun u u' delivered => ?_⟩
  · cases delivered with
    | reference known => exact (label_same handed (referred u known)).symm
    | copied live bare =>
      change (husk h _, _, _) = (h'.anyMoved && false, _, _)
      rw [live, bare, Bool.and_false]
      rfl
    | crossed crossed stands =>
      cases stands with
      | shared passed => exact (label_same handed (referred u (.shared crossed passed))).symm
      | built mem =>
        rw [copy_label handed mem]
        change (husk h u, shapeOf h u, _) = _
        rw [unhusked (built mem), (handed.inv.complete _ mem not_mem_nil).shape (counts mem),
          movable.bare u (built mem)]
        rfl
      | range _ fresh there excl start finish =>
        have here := (handed.young _ fresh).trans there
        simp only [contentsOf, husk, valueMoved, shapeOf, besideOf, Heap.range, body_of_cell here,
          Bool.and_false]
        rw [standsOption_isSome start, standsOption_isSome finish, ← excl]
        rfl
  · cases delivered with
    | reference known =>
      change List.Forall₂ _ ((graphOf h).succ u) ((graphOf h').succ u)
      rw [succ_same (referred u known)]
      exact forall₂_same.mpr (further u known)
    | @copied a n _ bare =>
      change List.Forall₂ _ ([] ++ (besideOf h (.str (.shared a))).map (·.2)) []
      rw [bare]
      exact .nil
    | crossed crossed stands =>
      cases stands with
      | shared passed =>
        have known := Referred.shared crossed passed
        change List.Forall₂ _ ((graphOf h).succ u) ((graphOf h').succ u)
        rw [succ_same (referred u known)]
        exact forall₂_same.mpr (further u known)
      | built mem =>
        have refused := (handed.inv.entry _ mem).refused
        change List.Forall₂ _ (storedEdges h u ++ (besideOf h u).map (·.2)) ((graphOf h').succ u')
        rw [copy_succ handed mem, movable.bare u (built mem), map_nil]
        refine rel_append ?_ .nil
        refine ((handed.inv.complete _ mem not_mem_nil).takes (counts mem)).imp fun e e' takes => ?_
        cases takes with
        | stands edge standing => exact .crossed (crossed.tail ⟨refused, edge⟩) standing
        | @copied addr a n hash structured key text thawed same =>
          subst hash text same
          have live := movable.live addr (built mem) structured a key thawed
          refine .copied live (movable.bare _ ⟨crossed.tail ⟨refused, ?_⟩, ?_, rfl⟩)
          · obtain ⟨pair, listed, same⟩ := mem_map.mp key
            exact mem_append_left _ (mem_flatMap.mpr ⟨pair, listed, by simp [same]⟩)
          · rw [shareable_str, live]
            exact thawed
        | member object mem same =>
          subst object same
          exact .reference ⟨_, .inr ⟨_, crossed, refused, mem⟩, .refl⟩
      | @range a b first last excl refused fresh there _ start finish =>
        have here := (handed.young _ fresh).trans there
        have ends : ∀ {x y : Option RubyValue}, x.toList ⊆ rangeEnds h a → StandsOption h st x y →
            List.Forall₂ (Delivered h v st) x.toList y.toList := fun within stands =>
          ((forall₂_and_left _ _).mpr ⟨within, standsOption_toList stands⟩).imp
            fun _ _ both => .crossed (crossed.tail ⟨refused, both.1⟩) both.2
        simp only [contentsOf, graphOf, storedEdges, rangeEnds, besideOf, Heap.range,
          body_of_cell here]
        exact rel_append (rel_append (ends (subset_append_left _ _) start)
          (ends (subset_append_right _ _) finish)) .nil

section Necessary

variable {related : RubyValue → RubyValue → Prop} (roots : related v out)
  (keeps : (contentsOf h).Keeps (contentsOf h') related)

include handed keeps in
/-- The pairs of a hash and of the copy it is related to are as many. -/
theorem related_count (mem : (u, u') ∈ st.built) (pair : related u u') : SameCount h st u u' := by
  rintro a b rfl rfl
  have shapes := congrArg (·.2.1) (keeps.label _ _ pair)
  have same : shapeOf h (.hash a) = shapeOf st.heap (.hash b) :=
    shapes.trans (shapeOf_eq (copy_same handed mem))
  injection same with length _ _
  exact length.symm

include handed keeps in
theorem related_succ (mem : (u, u') ∈ st.built) (pair : related u u') :
    List.Forall₂ related (storedEdges h u ++ (besideOf h u).map (·.2))
      (storedEdges st.heap u' ++ []) := by
  rw [← copy_succ handed mem]
  exact keeps.succ u u' pair

include handed roots keeps in
/-- What is crossed is related to what stands for it, or to the frozen copy of a string key. -/
theorem related_partner (crossed : Crossed h v u) :
    ∃ u', related u u' ∧ (Stands h st u u' ∨
      ∃ a n, u = .str (.shared a) ∧ h.frozen a = false ∧
        u' = .str (.frozenCopy n (h.str a))) := by
  induction crossed with
  | refl => exact ⟨out, roots, .inl handed.stands⟩
  | @tail b c _ edge ih =>
    obtain ⟨b', pair, standing | ⟨a, n, rfl, _⟩⟩ := ih
    · obtain ⟨refused, edge⟩ := edge
      cases standing with
      | shared passed =>
        rw [refused] at passed
        cases passed
      | built mem =>
        exact (handed.inv.complete _ mem not_mem_nil).edge_partner (related_count handed keeps mem pair)
          (related_succ handed keeps mem pair) edge
      | @range a b start finish excl _ fresh there _ first last =>
        have here := (handed.young _ fresh).trans there
        have succ := keeps.succ _ _ pair
        simp only [contentsOf, graphOf, storedEdges, rangeEnds, besideOf, Heap.range,
          body_of_cell here, append_assoc] at succ
        rcases mem_append.mp edge with before | behind
        · obtain ⟨e', _, partner, stands⟩ := forall₂_meets
            (forall₂_both succ (standsOption_toList first)) before
          exact ⟨e', partner, .inl stands⟩
        · have rest := forall₂_behind (standsOption_toList first).length_eq succ
          obtain ⟨e', _, partner, stands⟩ := forall₂_meets
            (forall₂_both rest (standsOption_toList last)) behind
          exact ⟨e', partner, .inl stands⟩
    · cases edge.2

include handed roots keeps in
theorem moved_bare (moved : Moved h v u) : besideOf h u = [] := by
  obtain ⟨crossed, refused, identity⟩ := moved
  obtain ⟨u', pair, standing⟩ := related_partner handed roots keeps crossed
  have names : (besideOf h u).map (·.1) = [] := by
    refine (congrArg (·.2.2) (keeps.label _ _ pair)).trans ?_
    rcases standing with standing | ⟨a, n, _, _, rfl⟩
    · cases standing with
      | shared passed =>
        rw [refused] at passed
        cases passed
      | built mem => exact congrArg (·.2.2) (copy_label handed mem)
      | range _ _ _ _ _ _ => cases identity
    · rfl
  exact map_eq_nil_iff.mp names

include handed roots keeps in
/-- The copy of a hash that was moved. -/
theorem moved_hash {addr : Addr} (moved : Moved h v (.hash addr)) :
    ∃ b, (.hash addr, .hash b) ∈ st.built ∧ related (.hash addr) (.hash b) := by
  obtain ⟨crossed, refused, identity⟩ := moved
  obtain ⟨u', pair, standing | ⟨_, _, text, _⟩⟩ :=
    related_partner handed roots keeps crossed
  · cases standing with
    | shared passed =>
      rw [refused] at passed
      cases passed
    | built mem =>
      obtain ⟨b, _, same, _⟩ := (handed.inv.entry _ mem).placed
      change u' = .hash b at same
      subst same
      exact ⟨b, mem, pair⟩
  · cases text

include handed keeps in
/-- A node that is related to itself is no husk now, and leads to what it led to. -/
theorem related_stays (within : Inside h u) (self : related u u) :
    (Moved h v u → ¬Retags h u) ∧ ∀ e ∈ (graphOf h).succ u, related e e := by
  have stays : Moved h v u → ¬Retags h u := by
    intro moved retags
    obtain ⟨e, mem, rfl⟩ := mem_map.mp ((built_iff_moved handed.inv handed.stands u).mpr moved)
    obtain ⟨addr, target⟩ := built_target handed.inv mem
    have gone := poison_husk within target moved.2.2 retags (handed.arms _ moved)
      (handed.emptied _ moved addr target)
    have same : husk h e.1 = husk h' e.1 := congrArg (·.1) (keeps.label _ _ self)
    rw [gone, husk, moved.live handed.gated handed.formed within, Bool.and_false] at same
    cases same
  refine ⟨stays, fun e edge => ?_⟩
  have succ : List.Forall₂ related ((graphOf h).succ u) ((graphOf h').succ u) := keeps.succ u u self
  rw [succ_same (kept_same handed within stays)] at succ
  exact forall₂_same.mp succ e edge

include handed roots keeps in
/-- What passes by reference is related to itself, and so is everything behind it. -/
theorem referred_stays (referred : Referred h v u) (moved : Moved h v u) : ¬Retags h u := by
  obtain ⟨c, byReference, reach⟩ := referred
  have first : related c c := by
    rcases byReference with ⟨crossed, passed⟩ | ⟨addr, crossed, refused, member⟩
    · obtain ⟨u', pair, standing | ⟨a, n, rfl, thawed, rfl⟩⟩ :=
        related_partner handed roots keeps crossed
      · cases standing with
        | shared _ => exact pair
        | built mem => exact absurd passed (by simp [(handed.inv.entry _ mem).refused])
        | range refused _ _ _ _ _ => exact absurd passed (by simp [refused])
      · have live : husk h (.str (.shared a)) = (h'.anyMoved && false) :=
          congrArg (·.1) (keeps.label _ _ pair)
        rw [shareable_str, live, Bool.and_false] at passed
        exact absurd (thawed.symm.trans passed) Bool.false_ne_true
    · obtain ⟨u', pair, standing | ⟨_, _, text, _⟩⟩ :=
        related_partner handed roots keeps crossed
      · cases standing with
        | shared passed => exact absurd passed (by simp [refused])
        | built mem =>
          exact (handed.inv.complete _ mem not_mem_nil).member_partner (related_succ handed keeps mem pair)
            rfl member
      · cases text
  have self : related u u := by
    clear moved
    induction reach with
    | refl => exact first
    | @tail b d before edge ih =>
      have within := referred_inside handed.formed handed.inside ⟨c, byReference, before⟩
      exact (related_stays handed keeps within ih).2 d edge
  exact (related_stays handed keeps
    (referred_inside handed.formed handed.inside ⟨c, byReference, reach⟩) self).1 moved

include handed roots keeps in
/-- A message whose contents arrive was movable. -/
theorem movable_of_keeps (lawful : im.Lawful) (settled : KeysSettled rt h v) : Movable rt h v where
  bare u moved := moved_bare handed roots keeps moved
  live addr moved structured a key thawed := by
    obtain ⟨b, mem, pair⟩ := moved_hash handed roots keeps moved
    obtain ⟨out, partner, standsKey⟩ := (handed.inv.complete _ mem not_mem_nil).key_partner
      (related_succ handed keeps mem pair) rfl (related_count handed keeps mem pair) key
    rw [structured] at standsKey
    cases standsKey with
    | same _ kept =>
      have frozen := kept.resolve_left Bool.false_ne_true a rfl
      rw [thawed] at frozen
      cases frozen
    | copied _ _ =>
      exact (congrArg (·.1) (keeps.label _ _ partner)).trans (Bool.and_false _)
  apart addr crossed refused := by
    obtain ⟨b, mem, pair⟩ := moved_hash handed roots keeps ⟨crossed, refused, rfl⟩
    exact (sameCount_iff handed.inv lawful settled mem).mp (related_count handed keeps mem pair)
  references u referred moved :=
    referred_stays handed roots keeps referred moved

end Necessary

end Arrival

/-- The end of `cross_graph`: poison each node, and arm the gate for moves if there is one. -/
def commit (moved : List RubyValue) (h : Heap im) : Heap im :=
  if moved.isEmpty then h else { moved.foldl poison h with anyMoved := true }

/-- What a message that arrives leaves behind. -/
structure Emptied (h : Heap im) (v : RubyValue) (h' : Heap im) : Prop where
  once : ∃ built moved, Extends h built ∧ moved.Nodup ∧ (∀ u, u ∈ moved ↔ Moved h v u) ∧
    h' = commit moved built
  poisoned : ∀ u, Moved h v u → ∀ addr ∈ targetOf u, h'.cell addr = (poison h u).cell addr
  /-- Nothing else on the heap has changed. -/
  others : ∀ addr < h.next, (∀ u, Moved h v u → targetOf u ≠ some addr) →
    h'.cell addr = h.cell addr

section Sending

variable {h : Heap im} {v out : RubyValue} {st : CrossState im}

theorem commit_cell (moved : List RubyValue) (h : Heap im) (addr : Addr) :
    (commit moved h).cell addr = (moved.foldl poison h).cell addr := by
  cases moved with
  | nil | cons u moved => rfl

variable {rt : Runtime im}

theorem commit_built (formed : WellFormed h) (inside : Inside h v) (inv : Inv rt h v [] st)
    (stands : Stands h st v out) :
    (∀ u, Moved h v u → ∀ addr ∈ targetOf u,
      (commit (st.built.map (·.1)) st.heap).cell addr = (poison h u).cell addr) ∧
    (∀ addr, (∀ u, Moved h v u → targetOf u ≠ some addr) →
      (commit (st.built.map (·.1)) st.heap).cell addr = st.heap.cell addr) := by
  have listed := built_iff_moved inv stands
  constructor
  · intro u moved addr target
    have apart : ∀ u ∈ st.built.map (·.1), ∀ w ∈ st.built.map (·.1), ∀ addr,
        targetOf u = some addr → targetOf w = some addr → u = w := by
      intro u there w there' addr target target'
      exact same_target (crossed_inside formed inside ((listed u).mp there).1)
        (crossed_inside formed inside ((listed w).mp there').1) target target'
    rw [commit_cell, poisonAll_cell inv.keys apart ((listed u).mpr moved) target]
    have old := (crossed_inside formed inside moved.1).lt_next target
    exact poison_same target (inv.grown.cells addr old)
  · intro addr other
    rw [commit_cell]
    exact poisonAll_other _ fun u there => other u ((listed u).mp there)

section Arrived

variable (formed : WellFormed h) (inside : Inside h v) (inv : Inv rt h v [] st)
  (stands : Stands h st v out)

include formed inside inv stands

theorem emptied_of_inv : Emptied h v (commit (st.built.map (·.1)) st.heap) := by
  obtain ⟨poisoned, untouched⟩ := commit_built formed inside inv stands
  exact ⟨⟨st.heap, _, inv.grown, inv.keys, built_iff_moved inv stands, rfl⟩, poisoned,
    fun addr old other => (untouched addr other).trans (inv.grown.cells addr old)⟩

omit formed inside in
theorem commit_arms (moved : Moved h v u) :
    (commit (st.built.map (·.1)) st.heap).anyMoved = true := by
  have listed := (built_iff_moved inv stands u).mpr moved
  unfold commit
  rw [if_neg]
  intro empty
  rw [List.isEmpty_iff.mp empty] at listed
  cases listed

/-- A node that was moved is a husk from then on, unless it is an object whose class word cannot
change. -/
theorem moved_husk_iff (gated : Gated h) (moved : Moved h v u) :
    husk (commit (st.built.map (·.1)) st.heap) u = true ↔ Retags h u := by
  have within := crossed_inside formed inside moved.1
  obtain ⟨e, mem, rfl⟩ := mem_map.mp ((built_iff_moved inv stands u).mpr moved)
  obtain ⟨addr, target⟩ := built_target inv mem
  have cell := (commit_built formed inside inv stands).1 _ moved
  constructor
  · intro gone
    by_contra stays
    have same : ∀ addr ∈ targetOf e.1, (commit (st.built.map (·.1)) st.heap).cell addr =
        h.cell addr := by
      intro addr target
      rw [cell addr target, poison_stays stays]
    rw [husk, valueMoved_eq same, moved.live gated formed within, Bool.and_false] at gone
    cases gone
  · intro retags
    exact poison_husk within target moved.2.2 retags (commit_arms inv stands moved)
      (cell addr target)

/-- The contents arrive exactly if the message was movable. -/
theorem contents_iff (gated : Gated h) (lawful : im.Lawful) (settled : KeysSettled rt h v) :
    (contentsOf h).Alike v (contentsOf (commit (st.built.map (·.1)) st.heap)) out ↔
      Movable rt h v := by
  obtain ⟨_, emptied, others⟩ := emptied_of_inv formed inside inv stands
  have untouched := (commit_built formed inside inv stands).2
  have armed : h.anyMoved = true → (commit (st.built.map (·.1)) st.heap).anyMoved = true := by
    intro before
    unfold commit
    split
    · exact inv.grown.anyMoved.trans before
    · rfl
  have young : ∀ addr, h.next ≤ addr →
      (commit (st.built.map (·.1)) st.heap).cell addr = st.heap.cell addr := by
    intro addr young
    refine untouched addr fun u moved target => ?_
    exact Nat.not_lt.mpr young ((crossed_inside formed inside moved.1).lt_next target)
  have old : ∀ u, Inside h u → ¬Moved h v u → ∀ addr ∈ targetOf u,
      (commit (st.built.map (·.1)) st.heap).cell addr = h.cell addr := by
    intro u within still addr target
    refine others addr (within.lt_next target) fun w moved target' => still ?_
    rw [same_target within (crossed_inside formed inside moved.1) target target']
    exact moved
  have handed : Handed rt h v out st (commit (st.built.map (·.1)) st.heap) :=
    ⟨formed, inside, gated, inv, stands, armed, fun _ => commit_arms inv stands, young, old, emptied⟩
  constructor
  · rintro ⟨related, roots, keeps⟩
    exact movable_of_keeps handed roots keeps lawful settled
  · intro movable
    exact ⟨Delivered h v st, .crossed .refl stands, delivered_keeps handed lawful settled movable⟩

end Arrived

variable {mode : CrossMode}

theorem crossGraph_error {e : CrossFail}
    (ran : crossBuild rt h.crossDepth v (.new mode h) = .error e st) :
    crossGraph rt mode h v = (.error e, st.heap) := by
  unfold crossGraph
  rw [ran]

theorem crossGraph_ok (ran : crossBuild rt h.crossDepth v (.new mode h) = .ok out st) :
    crossGraph rt mode h v = (.ok out, commit st.sources st.heap) := by
  unfold crossGraph commit
  rw [ran]
  by_cases none : st.sources.isEmpty = true
  · simp only [if_pos none]
  · simp only [if_neg none]

end Sending

def onePort (closed : Bool) : Ports := fun p => if p = 0 then some ⟨[], closed⟩ else none

theorem gated_of_below {h : Heap im} (flags : ∀ addr < h.next, h.moved addr = false ∧
    (h.object addr).cls ≠ movedObjectClass) : Gated h := by
  have never : ∀ addr, h.moved addr = false ∧ (h.object addr).cls ≠ movedObjectClass := by
    intro addr
    by_cases below : addr < h.next
    · exact flags addr below
    · have none := h.fresh addr (Nat.le_of_not_lt below)
      unfold moved object body
      rw [none]
      exact ⟨rfl, fun same => by cases same⟩
  intro u gone
  cases u with
  | str s =>
    cases s with
    | shared addr => exact absurd gone (by simp [valueMoved, (never addr).1])
    | frozenCopy n buf => cases gone
  | array addr | hash addr => exact absurd gone (by simp [valueMoved, (never addr).1])
  | object addr => exact absurd gone (by simpa [valueMoved] using (never addr).2)
  | _ => cases gone

/-- A `Time`. -/
def timeHeap : Heap plainMap :=
  (Heap.empty.alloc ⟨.object ⟨⟨false, false, false⟩, 37, [], nodup_nil, none, [], none⟩, false, false,
    []⟩).2

/-- A list of an array and of a frozen hash whose default is that array. -/
def defaultHeap : Heap plainMap :=
  let h := (Heap.empty.alloc ⟨.array [.nil], false, false, []⟩).2
  let h := (h.alloc ⟨.hash (RHashData.new (.array 0)), true, false, []⟩).2
  (h.alloc ⟨.array [.array 0, .hash 1], false, false, []⟩).2

/-- A hash whose two keys were different when they were stored, and are both empty now. -/
def mergedHeap : Heap plainMap :=
  let h := (Heap.empty.alloc ⟨.array [], false, false, []⟩).2
  let h := (h.alloc ⟨.array [], false, false, []⟩).2
  let data : RHashData plainMap := RHashData.new .nil
  (h.alloc ⟨.hash { data with
    repr := .small [(.array [], (.array 0, .nil)), (.array [.nil], (.array 1, .nil))] },
    false, false, []⟩).2

/-- A string with an instance variable. -/
def taggedHeap : Heap plainMap :=
  (Heap.empty.alloc ⟨.str ⟨[0x61], Enc.utf8⟩, false, false, [("x", .nil)]⟩).2

/-- A message moved to an open port: the heap and the queue afterwards. -/
def movedTo (h : Heap plainMap) (v : RubyValue) : Heap plainMap × Option PortQueue :=
  let sent := portSendIn bareRuntime h (onePort false) 0 v true
  (sent.2.1, sent.2.2 0)

end Zeo.Ractor
