import Zeo.Ractor.Rebuild

/-!
# The calls of a crossing

Each arm of `cross_build` keeps what holds between two calls, and gives what stands for the value.
The loops over the elements, the pairs and the instance variables of a node run while the node is
open. A call that fails leaves the heap it began with as it was.
-/

namespace Zeo.Ractor

open Zeo.Lib Zeo.Value List RHashData Heap Walker List.Subset

variable {eql : UserEql} {im : ValueMap eql}
variable {rt : Runtime im} {origin : Heap im} {root v : RubyValue} {opened : List RubyValue} {depth : Nat}
  {tired : Prop} {st : CrossState im} {α : Type}

/-- As a condition says, or in a failure that leaves what was there. The walk is cut short only under
a condition. -/
def Spec (origin : Heap im) (tired : Prop) (post : α → CrossState im → Prop) :
    EStateM.Result CrossFail (CrossState im) α → Prop
  | .ok a st => post a st
  | .error e st => Extends origin st.heap ∧ (e = .fuel → tired)

theorem Spec.bind {α β : Type} {x : Cross im α} {f : α → Cross im β}
    {mid : α → CrossState im → Prop} {post : β → CrossState im → Prop}
    (first : Spec origin tired mid (x st))
    (next : ∀ a st', mid a st' → Spec origin tired post (f a st')) :
    Spec origin tired post ((x >>= f) st) := by
  change Spec origin tired post (EStateM.bind x f st)
  unfold EStateM.bind
  cases ran : x st with
  | ok a st' =>
    rw [ran] at first
    exact next a st' first
  | error e st' =>
    rw [ran] at first
    exact first

theorem Spec.imp {tired' : Prop} {post post' : α → CrossState im → Prop}
    {out : EStateM.Result CrossFail (CrossState im) α} (spec : Spec origin tired post out)
    (weaker : tired → tired') (further : ∀ a st, post a st → post' a st) :
    Spec origin tired' post' out := by
  cases out with
  | ok a st => exact further a st spec
  | error e st => exact ⟨spec.1, fun cut => weaker (spec.2 cut)⟩

def crossNodes (h : Heap im) : List RubyValue :=
  (List.range h.next).flatMap fun addr =>
    [.str (.shared addr), .array addr, .hash addr, .object addr]

/-- The depth a call may go to: what it enters is used up, and a range holds only older ones. -/
def need (origin : Heap im) (st : CrossState im) (v : RubyValue) : Nat :=
  Walker.need (crossNodes origin) (st.built.map (·.1)) origin.next (rangeRank v)

/-- A value crosses as it should to some depth, whatever nodes are open. -/
def Crosses (rt : Runtime im) (origin : Heap im) (root : RubyValue) (depth : Nat)
    (cross : RubyValue → Cross im RubyValue) : Prop :=
  ∀ opened v st, Inv rt origin root opened st → Inside origin v → Crossed origin root v →
    Spec origin (depth < need origin st v)
      (fun out st' => Inv rt origin root opened st' ∧ Step st st' ∧ Stands origin st' v out) (cross v st)

/-- Whatever is entered later, a call that is cut short means that the walk was. -/
def Room (origin : Heap im) (depth : Nat) (tired : Prop) (st : CrossState im) : Prop :=
  ∀ st' : CrossState im, st.built ⊆ st'.built → ∀ v, Inside origin v →
    depth < need origin st' v → tired

variable {st' : CrossState im}

theorem Room.later (room : Room origin depth tired st)
    (more : st.built ⊆ st'.built) : Room origin depth tired st' :=
  fun st'' further => room st'' (List.Subset.trans more further)

theorem Room.now (room : Room origin depth tired st) (inside : Inside origin v) :
    depth < need origin st v → tired :=
  room st (refl _) v inside

def Due (origin : Heap im) (root v : RubyValue) : Prop := Inside origin v ∧ Crossed origin root v

variable {h : Heap im}

theorem crossedEdges_stored (u : RubyValue) : crossedEdges h u ⊆ storedEdges h u := by
  intro e edge
  cases u with
  | object addr =>
    rcases mem_append.mp edge with ivar | payload
    · exact mem_append_left _ (mem_append_left _ ivar)
    · exact mem_append_right _ payload
  | _ => exact edge

theorem Due.edges (due : Due origin root v) (formed : WellFormed origin)
    (refused : shareable origin v = false) : ∀ u ∈ crossedEdges origin v, Due origin root u := by
  intro u edge
  refine ⟨?_, due.2.tail ⟨refused, edge⟩⟩
  exact storedEdges_inside formed v u (crossedEdges_stored v edge)

variable {cell : Cell im} {dst : Addr}

theorem setBody_cell (there : h.cell dst = some cell)
    (body : Body im) : (h.setBody dst body).cell dst = some { cell with body := body } := by
  change (if dst = dst then (h.cell dst).map _ else _) = _
  rw [if_pos rfl, there]
  rfl

theorem body_of_cell (there : h.cell dst = some cell) :
    h.body dst = some cell.body := by
  unfold body
  rw [there]
  rfl

section

variable {h : Heap im} {b : Addr} {frozen moved : Bool} {ivars : Fields}

theorem str_of_cell {buf : StrBuf} (there : h.cell b = some ⟨.str buf, frozen, moved, ivars⟩) :
    h.str b = buf := by
  unfold str
  rw [body_of_cell there]

theorem elems_of_cell {elems : List RubyValue}
    (there : h.cell b = some ⟨.array elems, frozen, moved, ivars⟩) : h.elems b = elems := by
  unfold Heap.elems
  rw [body_of_cell there]

variable {data : RHashData im}

theorem table_of_cell
    (there : h.cell b = some ⟨.hash data, frozen, moved, ivars⟩) : h.table b = data := by
  unfold table
  rw [body_of_cell there]

variable {data : ObjectData}

theorem object_of_cell
    (there : h.cell b = some ⟨.object data, frozen, moved, ivars⟩) : h.object b = data := by
  unfold object
  rw [body_of_cell there]

theorem frozen_of_cell {body : Body im} (there : h.cell b = some ⟨body, frozen, moved, ivars⟩) :
    h.frozen b = frozen := by
  unfold Heap.frozen
  rw [there]
  rfl

theorem sideIvars_of_cell {body : Body im} (there : h.cell b = some ⟨body, frozen, moved, ivars⟩) :
    h.sideIvars b = ivars := by
  unfold sideIvars
  rw [there]
  rfl

end

variable {a : Addr}

section Loops

variable {cross : RubyValue → Cross im RubyValue} (crosses : Crosses rt origin root depth cross)
  {dst : Addr} {base : CrossState im}

include crosses

theorem Under.called (under : Under rt origin root opened v dst base st)
    (there : st.heap.cell dst = some cell) (room : Room origin depth tired st)
    {e : RubyValue} (due : Due origin root e) :
    Spec origin tired (fun out st' => Under rt origin root opened v dst base st' ∧
      st'.heap.cell dst = some cell ∧ Step st st' ∧ Stands origin st' e out) (cross e st) := by
  apply (crosses _ e st under.inv due.1 due.2).imp (room.now due.1)
  rintro out st' ⟨inv, step, stands⟩
  exact ⟨under.call inv step, (step.grown.cells dst under.lt_next).trans there, step, stands⟩

omit crosses in
theorem Under.setBody (under : Under rt origin root opened v dst base st)
    (there : st.heap.cell dst = some cell)
    (container : containerIdentity v = some v) (body : Body im)
    (kind : fits (place v dst) body = true) :
    Under rt origin root opened v dst base { st with heap := st.heap.setBody dst body } ∧
      (st.heap.setBody dst body).cell dst = some { cell with body := body } ∧
      Persists st { st with heap := st.heap.setBody dst body } := by
  have writes : Writes dst st { st with heap := st.heap.setBody dst body } :=
    ⟨fun _ other => if_neg other, Nat.le_refl _, rfl, rfl, rfl, rfl⟩
  have cell' := setBody_cell there body
  have noText : ∀ s, v ≠ .str s := by
    rintro s rfl
    cases container
  exact ⟨under.write writes under.inv.calm noText (body_of_cell cell') kind, cell', under.persists writes⟩

variable {st : CrossState im}

theorem crossElems_spec {es done outs : List RubyValue}
    (under : Under rt origin root opened (.array a) dst base st)
    (cell : st.heap.cell dst = some ⟨.array outs, false, false, []⟩)
    (stands : List.Forall₂ (Stands origin st) done outs) (due : ∀ e ∈ es, Due origin root e)
    (room : Room origin depth tired st) :
    Spec origin tired (fun _ st' => Under rt origin root opened (.array a) dst base st' ∧
      ∃ outs', st'.heap.cell dst = some ⟨.array outs', false, false, []⟩ ∧
        List.Forall₂ (Stands origin st') (done ++ es) outs') (crossElems cross dst es st) := by
  induction es generalizing done outs st with
  | nil =>
    rw [append_nil]
    exact ⟨under, outs, cell, stands⟩
  | cons e es ih =>
    refine Spec.bind (under.called crosses cell room (due e mem_cons_self)) ?_
    rintro out st₁ ⟨under₁, cell₁, step, standsHere⟩
    obtain ⟨under₂, cell₂, persists⟩ := under₁.setBody cell₁ rfl (.array (outs ++ [out])) rfl
    change Spec origin tired _ (crossElems cross dst es { st₁ with heap := st₁.heap.push dst out })
    rw [push, elems_of_cell cell₁, append_cons]
    exact ih under₂ cell₂
      (rel_append (stands.imp fun _ _ known => (known.mono step.persists).mono persists)
        (.cons (standsHere.mono persists) .nil))
      (fun u later => due u (mem_cons_of_mem _ later)) (room.later step.built)

theorem crossOption_spec {v : Option RubyValue}
    (inv : Inv rt origin root opened st) (due : ∀ u ∈ v.toList, Due origin root u)
    (short : ∀ u ∈ v.toList, depth < need origin st u → tired) :
    Spec origin tired (fun out st' => Inv rt origin root opened st' ∧ Step st st' ∧
      StandsOption origin st' v out) (crossOption cross v st) := by
  cases v with
  | none => exact ⟨inv, .refl st, .none⟩
  | some v =>
    have here := due v mem_cons_self
    refine Spec.bind ((crosses opened v st inv here.1 here.2).imp (short v mem_cons_self)
      fun _ _ done => done) ?_
    rintro out st' ⟨inv', step, stands⟩
    exact ⟨inv', step, .some stands⟩

omit crosses in
theorem shareable_str (h : Heap im) (s : RStr) :
    shareable h (.str s) = (husk h (.str s) || h.strFrozen s) := by
  change (if husk h (.str s) then (true, []) else (h.strFrozen s, [])).1 = _
  cases husk h (.str s) <;> rfl

omit crosses in
theorem stands_thawed (inv : Inv rt origin root opened st)
    {key : RubyValue} (inside : Inside origin key) {s : RStr}
    (stands : Stands origin st key (.str s)) (thawed : (rt.worldAt st.heap).isFrozen s = false) :
    ∃ a, key = .str (.shared a) ∧ origin.frozen a = false ∧
      (rt.worldAt st.heap).strBuf s = origin.str a := by
  cases stands with
  | shared passed =>
    cases s with
    | shared a =>
      have old := inside.lt_next rfl
      refine ⟨a, rfl, (inv.grown.frozen old).symm.trans thawed, ?_⟩
      change st.heap.str a = origin.str a
      unfold str
      rw [inv.grown.body old]
    | frozenCopy a buf => cases thawed
  | built mem =>
    obtain ⟨identity, _, _, refused, ⟨b, body, same, target, _⟩, text⟩ := inv.entry _ mem
    cases key with
    | str s' =>
      rw [shareable_str, Bool.or_eq_false_iff] at refused
      cases s' with
      | shared a =>
        refine ⟨a, rfl, refused.2, ?_⟩
        cases same
        exact str_of_cell (text a b rfl rfl)
      | frozenCopy a buf => cases refused.2
    | array a | hash a | object a => cases same
    | _ => cases identity

variable {out : RubyValue}

omit crosses in
theorem stands_frozen (inv : Inv rt origin root opened st)
    (inside : Inside origin (.str (.shared a))) (stands : Stands origin st (.str (.shared a)) out)
    (frozen : ∀ s, out = .str s → (rt.worldAt st.heap).isFrozen s = true) :
    origin.frozen a = true := by
  cases stands with
  | shared _ =>
    rw [← inv.grown.frozen (inside.lt_next rfl)]
    exact frozen _ rfl
  | built mem =>
    obtain ⟨_, _, _, _, ⟨b, _, same, _⟩, text⟩ := inv.entry _ mem
    change out = .str (.shared b) at same
    subst same
    have flag : st.heap.frozen b = true := frozen _ rfl
    rw [frozen_of_cell (text a b rfl rfl)] at flag
    cases flag

omit crosses in
/-- The copy of a string has its text. -/
theorem stands_text (inv : Inv rt origin root opened st) {s : RStr} (inside : Inside origin (.str s))
    (stands : Stands origin st (.str s) out) : ∃ s', out = .str s' ∧
      (rt.worldAt st.heap).strBuf s' = (rt.worldAt origin).strBuf s := by
  cases stands with
  | shared _ =>
    refine ⟨s, rfl, ?_⟩
    cases s with
    | shared a =>
      change st.heap.str a = origin.str a
      unfold str
      rw [inv.grown.body (inside.lt_next rfl)]
    | frozenCopy n buf => rfl
  | built mem =>
    obtain ⟨_, _, _, refused, ⟨b, _, same, _⟩, text⟩ := inv.entry _ mem
    change out = .str (.shared b) at same
    subst same
    cases s with
    | shared a => exact ⟨.shared b, rfl, str_of_cell (text a b rfl rfl)⟩
    | frozenCopy n buf =>
      rw [shareable_str, Bool.or_eq_false_iff] at refused
      cases refused.2

omit crosses in
/-- A settled key projects in the copy as it is told. -/
theorem SettledKey.keyed {byIdentity : Bool} {key : RubyValue}
    (settled : SettledKey rt origin byIdentity key) (inv : Inv rt origin root opened st)
    (inside : Inside origin key) (stands : Stands origin st key out) :
    ∃ k, hashKeyIn (rt.worldAt st.heap) out byIdentity = pure k ∧
      Keyed rt origin st byIdentity key k := by
  cases settled with
  | text structured text =>
    subst structured text
    obtain ⟨s', rfl, text⟩ := stands_text inv inside stands
    refine ⟨_, rfl, .same ?_ fun addr same => by cases same⟩
    rw [hashKeyIn_str, text]
  | @reference k passed alike cells =>
    have same : out = key := by
      cases stands with
      | shared _ => rfl
      | built mem => exact absurd passed (by simp [(inv.entry _ mem).refused])
      | range refused _ _ _ _ _ => exact absurd passed (by simp [refused])
    subst same
    exact ⟨k, alike _ inv.grown,
      .same (alike _ (.refl origin)) fun addr here => ⟨cells addr here, passed⟩⟩
  | @address addr identity memo address target =>
    subst identity
    have projects : ∀ w, hashKeyIn w key true = pure (.identity addr) := by
      intro w
      rw [hashKeyIn_identity, address]
    cases stands with
    | shared passed =>
      refine ⟨_, projects _, .same (projects _) fun other same => ?_⟩
      cases same
      exact ⟨target, passed⟩
    | built mem =>
      obtain ⟨_, _, _, _, ⟨b, _, same, place, _⟩, _⟩ := inv.entry _ mem
      refine ⟨.identity b, ?_, .copied mem target place (projects _)⟩
      change out = Ractor.place key b at same
      subst same
      cases key with
      | str _ | array _ | object _ => rfl
      | hash _ => cases address
      | _ => cases memo
    | range _ _ _ _ _ _ => cases memo

/-- The copy of a hash with some of the pairs stored. -/
structure Filled (rt : Runtime im) (origin : Heap im) (root : RubyValue) (st : CrossState im)
    (byIdentity : Bool) (done : Pairs) (data : RHashData im) : Prop where
  sound : data.Sound
  mode : data.compareByIdentity = byIdentity
  within : ∀ key ∈ done.map (·.1), Inside origin key
  stands : StandPairs origin st byIdentity done (hashPairsSnapshot data)
  /-- With settled keys the rows are told apart as the keys are. -/
  told : KeysSettled rt origin root → RowsTold rt origin st byIdentity (done.map (·.1)) data.rows

omit crosses in
theorem Filled.mono {byIdentity : Bool} {done : Pairs}
    (filled : Filled rt origin root st byIdentity done data) (persists : Persists st st') :
    Filled rt origin root st' byIdentity done data :=
  { filled with
    stands := filled.stands.mono persists
    told := fun settled => (filled.told settled).mono persists }

omit crosses in
/-- A pair is stored behind the others, or it falls together with one of them. -/
theorem hashSet_spec (lawful : im.Lawful) {byIdentity : Bool} {done : Pairs}
    (under : Under rt origin root opened (.hash a) dst base st)
    (cell : st.heap.cell dst = some ⟨.hash data, false, false, []⟩)
    (filled : Filled rt origin root st byIdentity done data)
    {key value outKey outValue : RubyValue} (inside : Inside origin key)
    (settles : KeysSettled rt origin root → SettledKey rt origin byIdentity key)
    (standsKey : Stands origin st key outKey) (standsValue : Stands origin st value outValue) :
    Spec origin tired (fun _ st' => Under rt origin root opened (.hash a) dst base st' ∧
      st.built ⊆ st'.built ∧
      ∃ data', st'.heap.cell dst = some ⟨.hash data', false, false, []⟩ ∧
        Filled rt origin root st' byIdentity (done ++ [(key, value)]) data')
      (hashSet rt dst outKey outValue st) := by
  obtain ⟨sound, rfl, within, stands, told⟩ := filled
  unfold hashSet
  rw [table_of_cell cell]
  cases set : hashSetUnder (rt.worldAt st.heap) ⟨st.heap.next, st.parked⟩ data outKey outValue with
  | overflow | raised message => exact ⟨under.inv.grown, by simp⟩
  | done result =>
    obtain ⟨data', run'⟩ := result
    obtain ⟨sound', mode', grew⟩ := hashSetUnder_pairs lawful sound set
    have writes : Writes dst st { st with
        heap := (st.heap.setBody dst (.hash data')).reserve run'.next
        parked := run'.parked } :=
      ⟨fun _ other => if_neg other, le_max_left _ _, rfl, rfl, rfl, rfl⟩
    have cell' := setBody_cell cell (.hash data')
    have persists := under.persists writes
    have stores : KeysSettled rt origin root → run'.parked = false ∧
        RowsTold rt origin st data.compareByIdentity (done.map (·.1) ++ [key]) data'.rows := by
      intro settled
      obtain ⟨k, projects, keyed⟩ := (settles settled).keyed under.inv inside standsKey
      obtain ⟨calm, stored⟩ := hashSetUnder_rows lawful sound projects (under.inv.calm settled) set
      refine ⟨calm, (told settled).snoc under.inv within inside ?_ keyed stored⟩
      simpa [hashPairsSnapshot_rows lawful] using stands.length_le
    have snoc : (done ++ [(key, value)]).map (·.1) = done.map (·.1) ++ [key] := map_append
    refine ⟨under.write writes (fun settled => (stores settled).1) (fun _ => RubyValue.noConfusion)
      (body_of_cell cell') rfl, refl _, data', cell', sound', mode', ?_, ?_, ?_⟩
    · rw [snoc]
      exact forall_mem_append.mpr ⟨within, by simpa using inside⟩
    · refine (stands.mono persists).snoc
        ⟨⟨_, standsKey.mono persists⟩, _, standsValue.mono persists⟩ ?_
      refine grew.imp_right fun ⟨kept, appended, form⟩ =>
        ⟨_, appended, ?_, standsValue.mono persists⟩
      rcases form with ⟨rfl, kept⟩ | ⟨structured, s, n, rfl, thawed, rfl⟩
      · refine .same (standsKey.mono persists) (kept.imp_right fun frozen b text => ?_)
        subst text
        exact stands_frozen under.inv inside standsKey frozen
      · obtain ⟨b, rfl, unfrozen, text⟩ := stands_thawed under.inv inside standsKey thawed
        rw [text]
        exact .copied structured unfrozen
    · intro settled
      rw [snoc]
      exact (stores settled).2.mono persists

theorem crossPairs_spec (lawful : im.Lawful) {byIdentity : Bool} {pairs done : Pairs}
    (under : Under rt origin root opened (.hash a) dst base st)
    (cell : st.heap.cell dst = some ⟨.hash data, false, false, []⟩)
    (filled : Filled rt origin root st byIdentity done data)
    (due : ∀ pair ∈ pairs, Due origin root pair.1 ∧ Due origin root pair.2)
    (settles : KeysSettled rt origin root → ∀ pair ∈ pairs, SettledKey rt origin byIdentity pair.1)
    (room : Room origin depth tired st) :
    Spec origin tired (fun _ st' => Under rt origin root opened (.hash a) dst base st' ∧
      ∃ data', st'.heap.cell dst = some ⟨.hash data', false, false, []⟩ ∧
        Filled rt origin root st' byIdentity (done ++ pairs) data')
      (crossPairs rt cross dst pairs st) := by
  induction pairs generalizing done data st with
  | nil =>
    rw [append_nil]
    exact ⟨under, data, cell, filled⟩
  | cons pair pairs ih =>
    obtain ⟨key, value⟩ := pair
    obtain ⟨dueKey, dueValue⟩ := due (key, value) mem_cons_self
    refine Spec.bind (under.called crosses cell room dueKey) ?_
    rintro outKey st₁ ⟨under₁, cell₁, step₁, standsKey⟩
    refine Spec.bind (under₁.called crosses cell₁ (room.later step₁.built) dueValue) ?_
    rintro outValue st₂ ⟨under₂, cell₂, step₂, standsValue⟩
    have step := step₁.trans step₂
    refine Spec.bind (hashSet_spec lawful under₂ cell₂ (filled.mono step.persists) dueKey.1
      (fun settled => settles settled _ mem_cons_self) (standsKey.mono step₂.persists)
      standsValue) ?_
    rintro _ st₃ ⟨under₃, more, data', cell₃, filled₃⟩
    rw [append_cons]
    exact ih under₃ cell₃ filled₃ (fun pair later => due pair (mem_cons_of_mem _ later))
      (fun settled pair later => settles settled pair (mem_cons_of_mem _ later))
      (room.later (List.Subset.trans step.built more))

omit crosses in
theorem assign_split {before after : Fields} {name : String} {old : RubyValue} (new : RubyValue)
    (distinct : ((before ++ (name, old) :: after).map (·.1)).Nodup) :
    assign (before ++ (name, old) :: after) name new = before ++ (name, new) :: after := by
  rw [map_append, map_cons, nodup_middle, nodup_cons, ← map_append]
    at distinct
  have others : ∀ pair ∈ before ++ after,
      (if pair.1 = name then (name, new) else pair) = pair := by
    intro pair mem
    refine if_neg ?_
    rintro rfl
    exact distinct.1 (mem_map.mpr ⟨pair, mem, rfl⟩)
  have same (part : Fields) (among : ∀ pair ∈ part, pair ∈ before ++ after) :
      assign part name new = part :=
    (map_congr_left fun pair mem => others pair (among pair mem)).trans (map_id _)
  have first := same before fun _ => mem_append_left _
  have last := same after fun _ => mem_append_right _
  unfold assign at first last ⊢
  rw [map_append, map_cons, if_pos rfl, first, last]

def StandsIvar (origin : Heap im) (st : CrossState im) (pair out : String × RubyValue) : Prop :=
  pair.1 = out.1 ∧ Stands origin st pair.2 out.2

/-- The copy of an object with some of its instance variables crossed. -/
structure HalfCopied (origin : Heap im) (a : Addr) (st : CrossState im) (data : ObjectData)
    (done rest : Fields) : Prop where
  type : data.type = (origin.object a).type
  cls : data.cls = (origin.object a).cls
  members : data.members = (origin.object a).members
  payload : data.payload = (origin.object a).payload
  ivars : ∃ outs, data.ivars = outs ++ rest ∧ List.Forall₂ (StandsIvar origin st) done outs

theorem crossIvars_spec {frozen : Bool} {ivars done : Fields}
    (under : Under rt origin root opened (.object a) dst base st)
    (cell : st.heap.cell dst = some ⟨.object data, frozen, false, []⟩)
    (half : HalfCopied origin a st data done ivars)
    (due : ∀ pair ∈ ivars, Due origin root pair.2) (room : Room origin depth tired st) :
    Spec origin tired (fun _ st' => Under rt origin root opened (.object a) dst base st' ∧
      ∃ data', st'.heap.cell dst = some ⟨.object data', frozen, false, []⟩ ∧
        HalfCopied origin a st' data' (done ++ ivars) []) (crossIvars cross dst ivars st) := by
  induction ivars generalizing done data st with
  | nil =>
    rw [append_nil]
    exact ⟨under, data, cell, half⟩
  | cons pair ivars ih =>
    obtain ⟨name, value⟩ := pair
    refine Spec.bind (under.called crosses cell room (due _ mem_cons_self)) ?_
    rintro out st₁ ⟨under₁, cell₁, step, stands⟩
    obtain ⟨type, cls, members, payload, outs, listed, known⟩ := half
    have assigned : assign data.ivars name out = outs ++ (name, out) :: ivars := by
      rw [listed]
      exact assign_split out (listed ▸ data.distinct)
    have distinct : ((outs ++ (name, out) :: ivars).map (·.1)).Nodup := by
      rw [← assigned, assign_names]
      exact data.distinct
    obtain ⟨under₂, cell₂, persists⟩ := under₁.setBody cell₁ rfl (.object { data with
      ivars := outs ++ (name, out) :: ivars
      distinct := distinct }) rfl
    have next := rel_append
      (known.imp fun _ _ both => And.imp_right
        (fun known => (Stands.mono step.persists known).mono persists) both)
      (.cons ⟨rfl, stands.mono persists⟩ .nil :
        List.Forall₂ (StandsIvar origin _) [(name, value)] [(name, out)])
    change Spec origin tired _
      (crossIvars cross dst ivars { st₁ with heap := st₁.heap.setIvar dst name out })
    unfold setIvar
    simp only [object_of_cell cell₁, assigned]
    rw [append_cons]
    exact ih under₂ cell₂
      ⟨type, cls, members, payload, outs ++ [(name, out)], append_cons _ _ _, next⟩
      (fun pair later => due pair (mem_cons_of_mem _ later)) (room.later step.built)

theorem crossPayload_spec {frozen : Bool} {payload : Option RubyValue}
    (under : Under rt origin root opened (.object a) dst base st)
    (cell : st.heap.cell dst = some ⟨.object data, frozen, false, []⟩)
    (same : data.payload = payload) (due : ∀ u ∈ payload.toList, Due origin root u)
    (room : Room origin depth tired st) :
    Spec origin tired (fun _ st' => Under rt origin root opened (.object a) dst base st' ∧
      ∃ payload', st'.heap.cell dst = some ⟨.object { data with payload := payload' }, frozen, false,
          []⟩ ∧
        Persists st st' ∧ StandsOption origin st' payload payload')
      (crossPayload cross dst payload st) := by
  cases payload with
  | none =>
    refine ⟨under, none, ?_, (Step.refl st).persists, .none⟩
    rw [cell, ← same]
  | some wrapped =>
    refine Spec.bind (under.called crosses cell room (due wrapped mem_cons_self)) ?_
    rintro out st₁ ⟨under₁, cell₁, step, stands⟩
    obtain ⟨under₂, cell₂, persists⟩ :=
      under₁.setBody cell₁ rfl (.object { data with payload := some out }) rfl
    change Spec origin tired _ (.ok () { st₁ with heap := st₁.heap.setPayload dst out })
    rw [setPayload, object_of_cell cell₁]
    exact ⟨under₂, some out, cell₂, step.persists.trans persists, .some (stands.mono persists)⟩

end Loops

section Arms

/-- How a call on a value may end. -/
def Arrives (rt : Runtime im) (origin : Heap im) (root : RubyValue) (depth : Nat)
    (opened : List RubyValue) (v : RubyValue) (st : CrossState im) :
    EStateM.Result CrossFail (CrossState im) RubyValue → Prop :=
  Spec origin (depth + 1 < need origin st v) fun out st' =>
    Inv rt origin root opened st' ∧ Step st st' ∧ Stands origin st' v out

variable {cross : RubyValue → Cross im RubyValue} (crosses : Crosses rt origin root depth cross)
  (inv : Inv rt origin root opened st)

omit inv in
theorem Under.room {base : CrossState im}
    (under : Under rt origin root opened v dst base st) (node : v ∈ crossNodes origin)
    (unmet : v ∉ base.built.map (·.1)) : Room origin depth (depth + 1 < need origin base v) st := by
  intro st' more u inside cut
  have low := rangeRank_le inside
  have keys : base.built.map (·.1) ++ [v] ⊆ st'.built.map (·.1) := by
    refine append_subset.mpr ⟨map_subset _ (List.Subset.trans under.step.built more), ?_⟩
    exact cons_subset.mpr ⟨mem_map_of_mem (more under.entered), nil_subset _⟩
  have fewer : unseen (crossNodes origin) (st'.built.map (·.1)) <
      unseen (crossNodes origin) (base.built.map (·.1)) :=
    Nat.lt_of_le_of_lt (unseen_anti keys) (unseen_snoc node unmet)
  have paid := Nat.mul_le_mul_right (origin.next + 1) fewer
  rw [Nat.succ_mul] at paid
  unfold need Walker.need at cut ⊢
  omega

omit inv in
theorem tired_range (formed : WellFormed origin) {u : RubyValue}
    (edge : u ∈ rangeEnds origin a) (more : st.built ⊆ st'.built)
    (cut : depth < need origin st' u) : depth + 1 < need origin st (.range a) := by
  have falls := rangeRank_falls formed edge
  have fewer : unseen (crossNodes origin) (st'.built.map (·.1)) ≤
      unseen (crossNodes origin) (st.built.map (·.1)) :=
    unseen_anti (map_subset _ more)
  have kept := Nat.mul_le_mul_right (origin.next + 1) fewer
  unfold need Walker.need at cut ⊢
  omega

omit inv in
theorem mem_crossNodes {addr : Addr} (inside : Inside origin v)
    (target : targetOf v = some addr)
    (node : v ∈ [.str (.shared addr), .array addr, .hash addr, .object addr]) :
    v ∈ crossNodes origin :=
  mem_flatMap.mpr ⟨addr, mem_range.mpr (inside.lt_next target), node⟩

include inv

theorem crossRefused_spec {e : CrossFail} (real : e ≠ .fuel) :
    Arrives rt origin root depth opened v st (.error e st) :=
  ⟨inv.grown, fun cut => absurd cut real⟩

theorem crossStr_spec (due : Due origin root (.str (.shared a)))
    (refused : shareable origin (.str (.shared a)) = false)
    (unmet : .str (.shared a) ∉ st.built.map (·.1)) :
    Arrives rt origin root depth opened (.str (.shared a)) st
      (.ok (.str (.shared st.heap.next)) (st.enter (.str (.shared a)) (.str (origin.str a)) false)) := by
  have under := inv.enter false rfl due.1 due.2 refused unmet rfl
    (rfl : fits _ (.str (origin.str a) : Body im) = true) fun b same => by cases same; exact ⟨rfl, rfl⟩
  have cell : (st.enter (.str (.shared a)) (.str (origin.str a)) false).heap.cell st.heap.next =
      some ⟨.str (origin.str a), false, false, []⟩ := if_pos rfl
  exact ⟨under.close (.str cell) fun _ _ same => (by cases same), under.step, .built under.entered⟩

include crosses

theorem crossArray_spec (formed : WellFormed origin) (due : Due origin root (.array a))
    (refused : shareable origin (.array a) = false) (unmet : .array a ∉ st.built.map (·.1)) :
    Arrives rt origin root depth opened (.array a) st
      (crossArray cross (.array a) (origin.elems a) st) := by
  have under := inv.enter false rfl due.1 due.2 refused unmet rfl
    (rfl : fits _ (.array []) = true) fun _ text => by cases text
  have elems := crossElems_spec crosses under (if_pos rfl) .nil
    (due.edges formed refused) (under.room (mem_crossNodes due.1 rfl (by simp)) unmet)
  change Arrives rt origin root depth opened (.array a) st
    ((crossElems cross st.heap.next (origin.elems a) >>= fun _ => pure (.array st.heap.next))
      (st.enter (.array a) (.array []) false))
  refine Spec.bind elems ?_
  rintro _ st' ⟨under', outs, cell', stands⟩
  exact ⟨under'.close (.array cell' stands) fun _ _ same => (by cases same), under'.step,
    .built under'.entered⟩

theorem crossHash_spec (formed : WellFormed origin) (lawful : im.Lawful)
    (due : Due origin root (.hash a)) (refused : shareable origin (.hash a) = false)
    (unmet : .hash a ∉ st.built.map (·.1)) :
    Arrives rt origin root depth opened (.hash a) st
      (crossHash rt cross (.hash a) (origin.table a) st) := by
  have edges := due.edges formed refused
  simp only [crossedEdges, pairValues] at edges
  generalize table : origin.table a = src at edges ⊢
  have under := inv.enter false rfl due.1 due.2 refused unmet rfl
    (rfl : fits _ (.hash (new .nil) : Body im) = true) fun _ text => by cases text
  have cell : (st.enter (.hash a) (.hash (new .nil)) false).heap.cell st.heap.next =
      some ⟨.hash (new .nil), false, false, []⟩ := if_pos rfl
  -- The flag of the source is set before any pair is stored.
  obtain ⟨under₁, cell₁, _⟩ := under.setBody cell rfl
    (.hash { new .nil with compareByIdentity := src.compareByIdentity }) rfl
  have pairsDue : ∀ pair ∈ hashPairsSnapshot src, Due origin root pair.1 ∧ Due origin root pair.2 := by
    intro pair mem
    have both : ∀ u ∈ [pair.1, pair.2], Due origin root u := fun u here =>
      edges u (mem_append_left _ (mem_flatMap.mpr ⟨pair, mem, here⟩))
    exact ⟨both _ (by simp), both _ (by simp)⟩
  have sound : ({ new .nil with compareByIdentity := src.compareByIdentity } :
      RHashData im).Sound :=
    ⟨List.Pairwise.nil, fun rows same => by cases same; exact Nat.zero_le _⟩
  have room {st' : CrossState im} (under' : Under rt origin root opened (.hash a) st.heap.next st st') :
      Room origin depth (depth + 1 < need origin st (.hash a)) st' :=
    under'.room (mem_crossNodes due.1 rfl (by simp)) unmet
  have empty (st' : CrossState im) : Filled rt origin root st' src.compareByIdentity []
      { new .nil with compareByIdentity := src.compareByIdentity } :=
    ⟨sound, rfl, fun _ none => (not_mem_nil none).elim,
      ⟨Nat.le_refl _, fun _ none => (not_mem_nil none).elim, fun _ => .nil⟩,
      fun _ => ⟨iff_of_true rfl .nil, fun _ => .nil⟩⟩
  have settles : KeysSettled rt origin root →
      ∀ pair ∈ hashPairsSnapshot src, SettledKey rt origin src.compareByIdentity pair.1 := by
    intro settled pair mem
    have known := settled a due.2 refused
    rw [table] at known
    exact known _ (mem_map_of_mem mem)
  have pairs := crossPairs_spec crosses lawful under₁ cell₁ (empty _) pairsDue settles (room under₁)
  change Arrives rt origin root depth opened (.hash a) st ((do
    crossPairs rt cross st.heap.next (hashPairsSnapshot src)
    let default ← cross src.default
    let proc ← crossOption cross src.defaultProc
    change fun h => h.setBody st.heap.next (.hash { h.table st.heap.next with
      default := default, defaultProc := proc })
    pure (.hash st.heap.next) : Cross im RubyValue)
    { st.enter (.hash a) (.hash (new .nil)) false with
      heap := (st.enter (.hash a) (.hash (new .nil)) false).heap.setBody st.heap.next
        (.hash { (st.enter (.hash a) (.hash (new .nil)) false).heap.table st.heap.next with
          compareByIdentity := src.compareByIdentity }) })
  rw [table_of_cell cell]
  refine Spec.bind pairs ?_
  rintro _ st₂ ⟨under₂, data₂, cell₂, filled₂⟩
  refine Spec.bind (under₂.called crosses cell₂ (room under₂)
    (edges _ (mem_append_right _ mem_cons_self))) ?_
  rintro default st₃ ⟨under₃, cell₃, step₃, standsDefault⟩
  have procDue : ∀ u ∈ src.defaultProc.toList, Due origin root u := fun u here =>
    edges u (mem_append_right _ (mem_cons_of_mem _ here))
  refine Spec.bind (crossOption_spec crosses under₃.inv procDue
    fun u here => (room under₃).now (procDue u here).1) ?_
  rintro proc st₄ ⟨inv₄, step₄, standsProc⟩
  have under₄ := under₃.call inv₄ step₄
  have cell₄ := (step₄.grown.cells _ under₃.lt_next).trans cell₃
  obtain ⟨under₅, cell₅, persists⟩ := under₄.setBody cell₄ rfl
    (.hash { data₂ with default := default, defaultProc := proc }) rfl
  change Arrives rt origin root depth opened (.hash a) st (.ok (.hash st.heap.next) { st₄ with
    heap := st₄.heap.setBody st.heap.next (.hash { st₄.heap.table st.heap.next with
      default := default, defaultProc := proc }) })
  rw [table_of_cell cell₄]
  have later := (step₃.trans step₄).persists
  subst table
  refine ⟨under₅.close (.hash cell₅ filled₂.mode ((filled₂.stands.mono later).mono persists)
    ((standsDefault.mono step₄.persists).mono persists) (standsProc.mono persists)) ?_, under₅.step,
    .built under₅.entered⟩
  rintro settled b ⟨⟩
  rw [table_of_cell cell₅]
  exact (filled₂.told settled).apart

theorem crossObject_spec (formed : WellFormed origin) (due : Due origin root (.object a))
    (refused : shareable origin (.object a) = false) (unmet : .object a ∉ st.built.map (·.1)) :
    Arrives rt origin root depth opened (.object a) st
      (crossObject cross (.object a) (origin.object a) (origin.frozen a) st) := by
  have edges := due.edges formed refused
  have under := inv.enter (origin.frozen a) rfl due.1 due.2 refused unmet rfl
    (rfl : fits _ (.object (dupObject (origin.object a)) : Body im) = true) fun _ text => by cases text
  have room {st' : CrossState im}
      (under' : Under rt origin root opened (.object a) st.heap.next st st') :
      Room origin depth (depth + 1 < need origin st (.object a)) st' :=
    under'.room (mem_crossNodes due.1 rfl (by simp)) unmet
  have ivars := crossIvars_spec crosses under
    (if_pos rfl) ⟨rfl, rfl, rfl, rfl, [], rfl, .nil⟩
    (fun pair mem => edges _ (mem_append_left _ (mem_map_of_mem mem))) (room under)
  change Arrives rt origin root depth opened (.object a) st ((do
    crossIvars cross st.heap.next (origin.object a).ivars
    crossPayload cross st.heap.next (origin.object a).payload
    pure (.object st.heap.next) : Cross im RubyValue)
    (st.enter (.object a) (.object (dupObject (origin.object a))) (origin.frozen a)))
  refine Spec.bind ivars ?_
  rintro _ st₁ ⟨under₁, data, cell₁, half₁⟩
  obtain ⟨outs, listed, stands⟩ := half₁.ivars
  rw [append_nil] at listed
  subst listed
  refine Spec.bind (crossPayload_spec crosses under₁ cell₁ half₁.payload
    (fun u here => edges u (mem_append_right _ here)) (room under₁)) ?_
  rintro _ st₂ ⟨under₂, payload, cell₂, persists, standsPayload⟩
  exact ⟨under₂.close (.object cell₂ half₁.type half₁.cls half₁.members
    (stands.imp fun _ _ both => ⟨both.1, both.2.mono persists⟩) standsPayload)
    fun _ _ same => (by cases same), under₂.step, .built under₂.entered⟩

theorem crossRange_spec (formed : WellFormed origin) (due : Due origin root (.range a))
    (refused : shareable origin (.range a) = false) :
    Arrives rt origin root depth opened (.range a) st (crossRange cross (origin.range a) st) := by
  have edges := due.edges formed refused
  have first : (origin.range a).1.toList ⊆ rangeEnds origin a := subset_append_left _ _
  have second : (origin.range a).2.1.toList ⊆ rangeEnds origin a := subset_append_right _ _
  refine Spec.bind (crossOption_spec crosses inv (fun u here => edges u (first here))
    fun u here => tired_range formed (first here) (refl _)) ?_
  rintro start st₁ ⟨inv₁, step₁, standsStart⟩
  refine Spec.bind (crossOption_spec crosses inv₁ (fun u here => edges u (second here))
    fun u here => tired_range formed (second here) step₁.built) ?_
  rintro finish st₂ ⟨inv₂, step₂, standsFinish⟩
  have grown := alloc_extends st₂.heap ⟨.range start finish (origin.range a).2.2, false, false, []⟩
  have step₃ : Step st₂ { st₂ with
      heap := (st₂.heap.alloc ⟨.range start finish (origin.range a).2.2, false, false, []⟩).2 } :=
    ⟨grown, refl _, rfl⟩
  refine ⟨⟨inv₂.grown.trans grown, inv₂.keys, inv₂.places,
    fun e mem => (inv₂.entry e mem).grows grown, fun e mem closed => ?_, inv₂.sources, inv₂.calm,
    fun settled a b mem closed => ?_⟩, (step₁.trans step₂).trans step₃, ?_⟩
  · exact (inv₂.complete e mem closed).mono step₃.persists fun addr target =>
      grown.cells _ (inv₂.lt_next mem target)
  · have known := inv₂.told settled a b mem closed
    unfold Heap.table at known ⊢
    rwa [← grown.body (inv₂.lt_next mem rfl)] at known
  · exact .range refused inv₂.grown.next (if_pos rfl) rfl
      ((standsStart.mono step₂.persists).mono step₃.persists) (standsFinish.mono step₃.persists)

end Arms

variable {built : Pairs}

theorem mem_of_lookup (found : List.lookup v built = some out) : (v, out) ∈ built := by
  obtain ⟨before, after, rfl, -⟩ := lookup_eq_some_iff.mp found
  exact mem_append_right before mem_cons_self

theorem not_mem_of_lookup (missing : List.lookup v built = none) : v ∉ built.map (·.1) := by
  intro mem
  obtain ⟨entry, listed, rfl⟩ := mem_map.mp mem
  simpa using lookup_eq_none_iff.mp missing entry listed

theorem procRefused_ne_fuel (mode : CrossMode) : procRefused mode ≠ .fuel := by
  cases mode <;> exact CrossFail.noConfusion

theorem kindRefused_ne_fuel (rt : Runtime im) (h : Heap im) (v : RubyValue) (mode : CrossMode) :
    kindRefused rt h v mode ≠ .fuel := by
  cases mode <;> exact CrossFail.noConfusion

theorem crossArm_spec (formed : WellFormed origin) (lawful : im.Lawful) (rt : Runtime im)
    {cross : RubyValue → Cross im RubyValue} (crosses : Crosses rt origin root depth cross)
    (inv : Inv rt origin root opened st) (due : Due origin root v)
    (refused : shareable origin v = false)
    (unmet : crossIdentity v = some v → v ∉ st.built.map (·.1)) :
    Arrives rt origin root depth opened v st (crossArm rt cross v st) := by
  have body {addr : Addr} (target : targetOf v = some addr) :
      origin.body addr = st.heap.body addr :=
    (inv.grown.body (due.1.lt_next target)).symm
  cases v with
  | str s =>
    cases s with
    | shared a =>
      have arrives : Arrives rt origin root depth opened (.str (.shared a)) st _ :=
        crossStr_spec inv due refused (unmet rfl)
      rw [str, body rfl] at arrives
      exact arrives
    | frozenCopy a buf => exact crossRefused_spec inv (kindRefused_ne_fuel rt _ _ st.mode)
  | array a =>
    have arrives := crossArray_spec crosses inv formed due refused (unmet rfl)
    rw [elems, body rfl] at arrives
    exact arrives
  | hash a =>
    have arrives := crossHash_spec crosses inv formed lawful due refused (unmet rfl)
    rw [table, body rfl] at arrives
    exact arrives
  | range a =>
    have arrives := crossRange_spec crosses inv formed due refused
    rw [Heap.range, body rfl] at arrives
    exact arrives
  | object a =>
    have arrives := crossObject_spec crosses inv formed due refused (unmet rfl)
    rw [object, body rfl, ← inv.grown.frozen (due.1.lt_next rfl)] at arrives
    change Arrives rt origin root depth opened (.object a) st
      ((if _ then throw _ else _ : Cross im RubyValue) st)
    split
    · exact crossRefused_spec inv CrossFail.noConfusion
    · exact arrives
  | reference kind a =>
    cases kind with
    | proc => exact crossRefused_spec inv (procRefused_ne_fuel st.mode)
    | _ => exact crossRefused_spec inv (kindRefused_ne_fuel rt _ _ st.mode)
  | _ => exact crossRefused_spec inv (kindRefused_ne_fuel rt _ _ st.mode)

/-- `cross_build` keeps what holds between two calls, at every depth. -/
theorem crossBuild_crosses (formed : WellFormed origin) (lawful : im.Lawful) (rt : Runtime im)
    (fuel : Nat) : Crosses rt origin root fuel (crossBuild rt fuel) := by
  induction fuel with
  | zero => exact fun _ _ _ inv _ _ => ⟨inv.grown, fun _ => Nat.succ_pos _⟩
  | succ fuel ih =>
    intro opened v st inv inside reached
    have same := inv.grown.shareable formed inside
    change Arrives rt origin root fuel opened v st ((if shareable st.heap v then pure v else
      ((crossIdentity v).bind fun id => List.lookup id st.built).elim
        (crossArm rt (crossBuild rt fuel) v) pure : Cross im RubyValue) st)
    rw [same]
    cases passed : shareable origin v with
    | true => exact ⟨inv, .refl st, .shared passed⟩
    | false =>
      have self : ∀ id, crossIdentity v = some id → id = v := by
        intro id identity
        cases v <;> cases identity <;> rfl
      cases found : (crossIdentity v).bind fun id => List.lookup id st.built with
      | some done =>
        obtain ⟨id, identity, there⟩ := Option.bind_eq_some_iff.mp found
        obtain rfl := self id identity
        exact ⟨inv, .refl st, .built (mem_of_lookup there)⟩
      | none =>
        refine crossArm_spec formed lawful rt ih inv ⟨inside, reached⟩ passed fun identity => ?_
        rw [identity] at found
        exact not_mem_of_lookup found

theorem need_le_crossDepth (inside : Inside h v) (mode : CrossMode) :
    need h (.new mode h) v ≤ h.crossDepth := by
  have all : (crossNodes h).length = 4 * h.next := by
    unfold crossNodes
    simp [Nat.mul_comm]
  have fewer : unseen (crossNodes h) [] ≤ 4 * h.next := by
    rw [← all]
    exact length_filter_le _ _
  have few := Nat.mul_le_mul_right (h.next + 1) fewer
  have low := rangeRank_le inside
  change unseen (crossNodes h) [] * (h.next + 1) + rangeRank v + 1 ≤
    4 * h.next * (h.next + 1) + h.next + 1
  omega

theorem new_inv (rt : Runtime im) (mode : CrossMode) (h : Heap im) (root : RubyValue) :
    Inv rt h root [] (.new mode h) where
  grown := .refl h
  keys := nodup_nil
  places := nodup_nil
  entry _ mem := by cases mem
  complete _ mem := by cases mem
  sources := by cases mode <;> rfl
  calm _ := rfl
  told _ _ _ mem := by cases mem

/-- What a whole walk comes to: the value stands, or there is a refusal and the heap has only
grown. -/
theorem crossBuild_spec (formed : WellFormed h) (lawful : im.Lawful) (rt : Runtime im)
    (mode : CrossMode) (inside : Inside h v) :
    Spec h False (fun out st => Inv rt h v [] st ∧ st.mode = mode ∧ Stands h st v out)
      (crossBuild rt h.crossDepth v (.new mode h)) := by
  have walked := crossBuild_crosses formed lawful rt h.crossDepth [] v _ (new_inv rt mode h v) inside
    .refl
  have deep := need_le_crossDepth inside mode
  exact walked.imp (Nat.not_lt_of_le deep) fun _ _ done => ⟨done.1, done.2.1.mode, done.2.2⟩

theorem crossGraph_ne_fuel (formed : WellFormed h) (lawful : im.Lawful)
    (rt : Runtime im) (mode : CrossMode) (inside : Inside h v) :
    (crossGraph rt mode h v).1 ≠ .error .fuel := by
  have walked := crossBuild_spec formed lawful rt mode inside
  unfold crossGraph
  cases ran : crossBuild rt h.crossDepth v (.new mode h) with
  | ok out st =>
    by_cases none : st.sources.isEmpty = true
    · simp [none]
    · simp [none]
  | error e st =>
    rw [ran] at walked
    intro cut
    exact walked.2 (Except.error.inj cut)

end Zeo.Ractor
