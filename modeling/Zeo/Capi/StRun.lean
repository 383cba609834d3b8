import Zeo.Capi.StTable

/-!
# Re-entrant walks over `st_table`

`st_foreach` and its relatives walk over a snapshot, and `st_update` calls its function between the
search and the write. While a callback runs, any operation can be called: a state has the tables and
the stack of the walks and updates whose callbacks are running, and a run is any sequence of calls
and of answers of the innermost callback. What the replacing function of `st_foreach_with_replace`
does counts as the callback's own.

The promises: published counts are the numbers of live rows, every live row is found by its key, no
row index is out of range, and an answer `ST_DELETE` takes away the row shown and nothing else. They
hold throughout a run exactly when each answer fits the table it comes back to.
-/

namespace Zeo.Capi.St

open List

/-- The walks: `st_foreach` (and `st_foreach_safe`), `st_foreach_check`,
`st_foreach_with_replace`. -/
inductive Walk where
  | foreach
  | foreachCheck
  | foreachWithReplace
deriving DecidableEq

/-- `enum st_retval`, and any answer that is not one of them. -/
inductive Verdict where
  | continues
  | stop
  | delete
  | check
  | replace
  | unknown
deriving DecidableEq

inductive Frame where
  /-- A walk over table `tbl`: the row its callback is shown, and the rows left. -/
  | walk (tbl : Nat) (walk : Walk) (shown : Nat × Row) (left : List (Nat × Row))
  /-- An update of table `tbl`: the row that was found. -/
  | update (tbl : Nat) (found : Option (Nat × Row))

structure State where
  tables : List Table
  frames : List Frame

/-- What happens: a call, or an answer of the innermost callback with the words it leaves. -/
inductive Event where
  | init (kind : Kind)
  | insert (tbl : Nat) (key val : StData)
  | lookup (tbl : Nat) (key : StData)
  | delete (tbl : Nat) (key : StData)
  | clear (tbl : Nat)
  | cleanupSafe (tbl : Nat)
  | copy (tbl : Nat)
  | walk (tbl : Nat) (walk : Walk)
  /-- `rb_st_update` is called. -/
  | update (tbl : Nat) (key : StData)
  | answer (verdict : Verdict) (key val : StData)

variable (texts : Texts)

/-- `with_store`: a table that is not there is left alone. -/
def State.withStore (w : State) (tbl : Nat) (f : Table → Option Table) : Option State :=
  match w.tables[tbl]? with
  | none => some w
  | some t => (f t).map fun t' => { w with tables := w.tables.set tbl t' }

/-- The frames after the callback of a walk has been shown its row: the walk goes on to the next. -/
def nextVisit (tbl : Nat) (walk : Walk) (frames : List Frame) : List (Nat × Row) → List Frame
  | [] => frames
  | shown :: left => .walk tbl walk shown left :: frames

def Walk.goesOn : Walk → Verdict → Bool
  | _, .continues | _, .delete => true
  | .foreach, .check => false
  | _, .check => true
  | .foreachWithReplace, .replace => true
  | _, .replace => false
  | _, .stop | _, .unknown => false

def Walk.apply (walk : Walk) (shown : Nat × Row) (verdict : Verdict) (key val : StData)
    (t : Table) : Option Table :=
  match verdict with
  | .delete => some (t.removeAt shown.1).sync
  | .replace =>
    if walk = .foreachWithReplace then t.write shown.1 shown.2.stamp key val else some t
  | _ => some t

/-- What `rb_st_update` does to its table with an answer. -/
def updateApply (found : Option (Nat × Row)) (verdict : Verdict) (key val : StData) (t : Table) :
    Option Table :=
  match verdict, found with
  | .delete, some shown => some (t.removeAt shown.1).sync
  | .continues, some shown => (t.write shown.1 shown.2.stamp key val).map Table.sync
  | .continues, none => some (t.add texts key val).sync
  | _, _ => some t.sync

/-- What `rb_st_update` finds: none where the search panics. -/
def State.found (w : State) (tbl : Nat) (key : StData) : Option (Option (Nat × Row)) :=
  match w.tables[tbl]? with
  | none => some none
  | some t => do
    match ← t.find texts key with
    | some i =>
      match t.rows[i]? with
      | some (some row) => return some (i, row)
      | _ => none
    | none => return none

/-- One event. None is an index out of range. -/
def step (w : State) : Event → Option State
  | .init kind => some { w with tables := w.tables ++ [newTable kind] }
  | .insert tbl key val => w.withStore tbl fun t => (t.insert texts key val).map Table.sync
  | .lookup tbl key => w.withStore tbl fun t => (t.find texts key).map fun _ => t
  | .delete tbl key => w.withStore tbl fun t => t.delete texts key
  | .clear tbl => w.withStore tbl fun t => some t.clear
  | .cleanupSafe tbl => w.withStore tbl fun t => some (t.cleanupSafe texts)
  | .copy tbl =>
    match w.tables[tbl]? with
    | none => some w
    | some t => some { w with tables := w.tables ++ [t.copy texts] }
  | .walk tbl walk =>
    match w.tables[tbl]? with
    | none => some w
    | some t => some { w with frames := nextVisit tbl walk w.frames t.snapshot }
  | .update tbl key =>
    (w.found texts tbl key).map fun found => { w with frames := .update tbl found :: w.frames }
  | .answer verdict key val =>
    match w.frames with
    | [] => some w
    | .walk tbl walk shown left :: frames =>
      (w.withStore tbl (walk.apply shown verdict key val)).map fun w' =>
        { w' with
          frames := if walk.goesOn verdict then nextVisit tbl walk frames left else frames }
    | .update tbl found :: frames =>
      (w.withStore tbl (updateApply texts found verdict key val)).map fun w' => { w' with frames }

def State.Sound (w : State) : Prop := ∀ t ∈ w.tables, t.Sound texts

/-- The table and the row that an answer `ST_DELETE` is about. -/
def State.condemned (w : State) : Event → Option (Nat × (Nat × Row))
  | .answer .delete _ _ =>
    match w.frames with
    | .walk tbl _ shown _ :: _ => some (tbl, shown)
    | .update tbl (some shown) :: _ => some (tbl, shown)
    | _ => none
  | _ => none

/-- Table `t'` is `t` without the row shown: it is gone, and every other row is there still. -/
def TakenAway (shown : Nat × Row) (t t' : Table) : Prop :=
  ∀ row, some row ∈ t'.rows ↔ some row ∈ t.rows ∧ row.stamp ≠ shown.2.stamp

/-- An answer `ST_DELETE` takes away the row the callback was shown, or nothing if it is gone. -/
def DeletesShown (w : State) (e : Event) (w' : State) : Prop :=
  ∀ tbl shown, w.condemned e = some (tbl, shown) → ∀ t t', w.tables[tbl]? = some t →
    w'.tables[tbl]? = some t' → TakenAway shown t t'

def Good (w : State) : List Event → Prop
  | [] => w.Sound texts
  | e :: es =>
    w.Sound texts ∧ ∃ w', step texts w e = some w' ∧ DeletesShown w e w' ∧ Good w' es

/-- The index of the row shown is where this row is, if it lives, and no other. -/
def Table.ShownAt (t : Table) (shown : Nat × Row) : Prop :=
  ∀ i row, t.At i row → (i = shown.1 ↔ row.stamp = shown.2.stamp)

def Walk.Fits (walk : Walk) (shown : Nat × Row) (verdict : Verdict) (key : StData) (t : Table) :
    Prop :=
  match verdict with
  | .delete => t.ShownAt shown
  | .replace => walk = .foreachWithReplace → t.Writable texts shown.1 key
  | _ => True

/-- The answer of an update's function fits the table. -/
def UpdateFits (found : Option (Nat × Row)) (verdict : Verdict) (key : StData) (t : Table) : Prop :=
  match verdict, found with
  | .delete, some shown => t.ShownAt shown
  | .continues, some shown => t.Writable texts shown.1 key
  | .continues, none => t.Absent texts key
  | _, _ => True

/-- The answer an event gives, if it is one, fits the table it comes back to. -/
def Fits (w : State) : Event → Prop
  | .answer verdict key _ =>
    match w.frames with
    | [] => True
    | .walk tbl walk shown _ :: _ =>
      ∀ t, w.tables[tbl]? = some t → walk.Fits texts shown verdict key t
    | .update tbl found :: _ =>
      ∀ t, w.tables[tbl]? = some t → UpdateFits texts found verdict key t
  | _ => True

def AllFit (w : State) : List Event → Prop
  | [] => True
  | e :: es => Fits texts w e ∧ ∀ w', step texts w e = some w' → AllFit w' es

variable {texts} {t : Table}

open Table

theorem Table.at_removeAt {i j : Nat} {row : Row} :
    (t.removeAt i).At j row ↔ t.At j row ∧ j ≠ i := by
  unfold removeAt
  rcases entry : t.rows[i]? with _ | _ | gone
  · refine ⟨fun alive => ⟨alive, fun same => ?_⟩, And.left⟩
    subst same
    exact absurd (entry.symm.trans alive) (by simp)
  · refine ⟨fun alive => ⟨alive, fun same => ?_⟩, And.left⟩
    subst same
    exact absurd (entry.symm.trans alive) (by simp)
  · change (t.rows.set i none)[j]? = some (some row) ↔ _
    rw [at_set (Table.At.inside entry)]
    simp [and_comm]

theorem Table.mem_rows {row : Row} : some row ∈ t.rows ↔ ∃ i, t.At i row :=
  mem_iff_getElem?

/-- Removing the row at the index shown takes away the row shown exactly when this is where that
row is. -/
theorem takenAway_removeAt (shape : t.Shape texts) (shown : Nat × Row) :
    TakenAway shown t (t.removeAt shown.1).sync ↔ t.ShownAt shown := by
  have after : ∀ row, some row ∈ (t.removeAt shown.1).sync.rows ↔
      ∃ i, t.At i row ∧ i ≠ shown.1 := fun row => by
    rw [mem_rows]
    exact exists_congr fun i => at_removeAt
  constructor
  · intro taken i row alive
    have same := taken row
    rw [after, mem_rows] at same
    constructor
    · intro here
      by_contra other
      obtain ⟨j, there, elsewhere⟩ := same.mpr ⟨⟨i, alive⟩, other⟩
      exact elsewhere ((shape.stamped j i row row there alive rfl).trans here)
    · intro isShown
      by_contra elsewhere
      exact (same.mp ⟨i, alive, elsewhere⟩).2 isShown
  · intro shownAt row
    rw [after, mem_rows]
    constructor
    · rintro ⟨i, alive, elsewhere⟩
      exact ⟨⟨i, alive⟩, fun isShown => elsewhere ((shownAt i row alive).mpr isShown)⟩
    · rintro ⟨⟨i, alive⟩, other⟩
      exact ⟨i, alive, fun here => other ((shownAt i row alive).mp here)⟩

variable {key val : StData} {t' : Table}

/-- Words written where the table stays sound could be written there: a hole would not be counted,
a key of another hash would not be found, and one that another row has would hide one of the two. -/
theorem Table.Shape.writable_of_sound (shape : t.Shape texts) {i stamp : Nat}
    (written : t.write i stamp key val = some t') (sound : t'.sync.Sound texts) :
    t.Writable texts i key := by
  unfold Table.write at written
  rcases entry : t.rows[i]? with _ | _ | row
  · rw [entry] at written
    exact absurd written (by simp)
  · rw [entry] at written
    cases written
    have count := countP_set_isSome entry (some ⟨stamp, key, val⟩)
    have published : t.live = (t.rows.set i (some ⟨stamp, key, val⟩)).countP Option.isSome :=
      sound.published
    rw [shape.counted] at published
    simp at count
    omega
  · rw [entry] at written
    cases written
    have inside : i < t.rows.length := Table.At.inside entry
    have here : (t.rows.set i (some ⟨row.stamp, key, val⟩))[i]? =
        some (some ⟨row.stamp, key, val⟩) := List.getElem?_set_self inside
    refine ⟨row, entry, ?_, fun j other alive equal => ?_⟩
    · have listed : i ∈ t.index (t.kind.hash texts key) :=
        mem_of_findIn (sound.found i ⟨row.stamp, key, val⟩ here)
      exact (shape.listed i row _ entry).mp listed
    · by_contra elsewhere
      have there : (t.rows.set i (some ⟨row.stamp, key, val⟩))[j]? = some (some other) :=
        (at_set inside).mpr (Or.inr ⟨elsewhere, alive⟩)
      have same : t.kind.eq texts other.key (Row.mk row.stamp key val).key = true := equal
      exact elsewhere (sound.distinct there here same)

theorem Table.absent_of_sound (sound : (t.add texts key val).sync.Sound texts) :
    t.Absent texts key := by
  intro i row alive
  by_contra equal
  have here : (t.add texts key val).At t.rows.length ⟨t.minted, key, val⟩ :=
    at_add.mpr (Or.inr ⟨rfl, rfl⟩)
  have there : (t.add texts key val).At i row := at_add.mpr (Or.inl alive)
  have same : i = t.rows.length := sound.distinct there here (eq_true_of_ne_false equal)
  exact absurd alive.inside (Nat.not_lt.mpr (Nat.le_of_eq same.symm))

/-- Answering with `f` is right exactly when `fits`: then the table is kept in order and `right`
holds of it, and a table that is sound and `right` after it comes from a fitting answer. -/
structure Answers (texts : Texts) (f : Table → Option Table) (fits : Prop) (right : Table → Prop)
    (t : Table) : Prop where
  keeps : fits → ∃ t', f t = some t' ∧ t'.Ok texts ∧ right t'
  only : ∀ t', f t = some t' → t'.Sound texts → right t' → fits

theorem answers_true {f : Table → Option Table} {right : Table → Prop}
    (gives : f t = some t') (ok : t'.Ok texts) (isRight : right t') :
    Answers texts f True right t :=
  ⟨fun _ => ⟨t', gives, ok, isRight⟩, fun _ _ _ _ => trivial⟩

def RightDelete (verdict : Verdict) (shown : Nat × Row) (t t' : Table) : Prop :=
  verdict = .delete → TakenAway shown t t'

theorem answers_removeAt (shape : t.Shape texts) (shown : Nat × Row) :
    Answers texts (fun t => some (t.removeAt shown.1).sync) (t.ShownAt shown)
      (RightDelete .delete shown t) t where
  keeps fits := ⟨_, rfl, (shape.removeAt shown.1).sync,
    fun _ => (takenAway_removeAt shape shown).mpr fits⟩
  only t' gives _ isRight := by
    cases gives
    exact (takenAway_removeAt shape shown).mp (isRight rfl)

theorem Walk.answers (ok : t.Ok texts) (walk : Walk) (shown : Nat × Row) (verdict : Verdict)
    (key val : StData) :
    Answers texts (walk.apply shown verdict key val) (walk.Fits texts shown verdict key t)
      (RightDelete verdict shown t) t := by
  cases verdict with
  | delete => exact answers_removeAt ok.shape shown
  | replace =>
    cases walk with
    | foreachWithReplace =>
      refine ⟨fun fits => ?_, fun t' gives sound _ _ => ?_⟩
      · obtain ⟨t', written, shape, live, entries⟩ :=
          ok.shape.write (fits rfl) shown.2.stamp val
        exact ⟨t', written, ⟨shape, entries.trans (ok.published.trans live.symm)⟩,
          fun wrong => absurd wrong (by decide)⟩
      · change t.write shown.1 shown.2.stamp key val = some t' at gives
        have published : t'.numEntries = t'.live := by
          unfold write at gives
          split at gives
          · exact absurd gives (by simp)
          · cases gives
            exact ok.published
          · cases gives
            exact ok.published
        have synced : t'.sync = t' := by
          obtain ⟨kind, rows, index, live, numEntries, minted⟩ := t'
          cases published
          rfl
        exact ok.shape.writable_of_sound gives (synced.symm ▸ sound)
    | foreach | foreachCheck =>
      exact ⟨fun _ => ⟨t, rfl, ok, fun wrong => absurd wrong (by decide)⟩,
        fun _ _ _ _ wrong => absurd wrong (by decide)⟩
  | _ => exact answers_true rfl ok fun wrong => absurd wrong (by decide)

theorem updateAnswers (ok : t.Ok texts) (found : Option (Nat × Row)) (verdict : Verdict)
    (key val : StData) :
    Answers texts (updateApply texts found verdict key val) (UpdateFits texts found verdict key t)
      (fun t' => ∀ shown, found = some shown → RightDelete verdict shown t t') t := by
  have others : verdict ≠ .delete → verdict ≠ .continues →
      Answers texts (updateApply texts found verdict key val)
        (UpdateFits texts found verdict key t)
        (fun t' => ∀ shown, found = some shown → RightDelete verdict shown t t') t := by
    intro keep noWrite
    have nothing : updateApply texts found verdict key val t = some t.sync ∧
        (UpdateFits texts found verdict key t ↔ True) := by
      cases verdict <;> first | contradiction | exact ⟨rfl, Iff.rfl⟩
    exact ⟨fun _ => ⟨t.sync, nothing.1, ok.shape.sync, fun _ _ wrong => absurd wrong keep⟩,
      fun _ _ _ _ => nothing.2.mpr trivial⟩
  cases verdict with
  | delete =>
    cases found with
    | none => exact answers_true rfl ok.shape.sync fun _ wrong => absurd wrong (by simp)
    | some shown =>
      obtain ⟨keeps, only⟩ := answers_removeAt ok.shape shown
      refine ⟨fun fits => ?_, fun t' gives sound isRight => only t' gives sound (isRight shown rfl)⟩
      obtain ⟨t', gives, ok', isRight⟩ := keeps fits
      exact ⟨t', gives, ok', fun other same => Option.some.inj same ▸ isRight⟩
  | continues =>
    cases found with
    | none =>
      refine ⟨fun fits => ⟨_, rfl, (ok.shape.add fits).sync, fun _ wrong => absurd wrong (by simp)⟩,
        fun t' gives sound _ => ?_⟩
      cases gives
      exact absent_of_sound sound
    | some shown =>
      refine ⟨fun fits => ?_, fun t' gives sound _ => ?_⟩
      · obtain ⟨t', written, shape, -, -⟩ := ok.shape.write fits shown.2.stamp val
        refine ⟨t'.sync, ?_, shape.sync, fun _ _ wrong => absurd wrong (by decide)⟩
        change (t.write shown.1 shown.2.stamp key val).map sync = _
        rw [written]
        rfl
      · obtain ⟨t', written, rfl⟩ := Option.map_eq_some_iff.mp gives
        exact ok.shape.writable_of_sound written sound
  | _ => exact others (by decide) (by decide)

variable {w : State}

def State.Ok (texts : Texts) (w : State) : Prop := ∀ t ∈ w.tables, t.Ok texts

variable {tbl : Nat} {f : Table → Option Table} {w w' : State}

theorem State.Ok.sound (ok : w.Ok texts) : w.Sound texts := fun t mem => (ok t mem).sound

theorem State.Ok.get (ok : w.Ok texts) {t : Table} (there : w.tables[tbl]? = some t) :
    t.Ok texts :=
  ok t (mem_iff_getElem?.mpr ⟨tbl, there⟩)

/-- What `with_store` does with the table it finds. -/
theorem State.withStore_some {t t' : Table} (there : w.tables[tbl]? = some t)
    (gives : f t = some t') :
    w.withStore tbl f = some { w with tables := w.tables.set tbl t' } := by
  unfold State.withStore
  rw [there]
  change (f t).map _ = _
  rw [gives]
  rfl

theorem State.Ok.set (ok : w.Ok texts) (ok' : t'.Ok texts) :
    ({ w with tables := w.tables.set tbl t' } : State).Ok texts := fun _ mem =>
  (mem_or_eq_of_mem_set mem).elim (ok _) fun same => same ▸ ok'

theorem State.Ok.withStore (ok : w.Ok texts) (tbl : Nat)
    (keeps : ∀ t, t.Ok texts → ∃ t', f t = some t' ∧ t'.Ok texts) :
    ∃ w', w.withStore tbl f = some w' ∧ w'.Ok texts := by
  rcases there : w.tables[tbl]? with _ | t
  · exact ⟨w, by unfold State.withStore; rw [there], ok⟩
  · obtain ⟨t', gives, ok'⟩ := keeps t (ok.get there)
    exact ⟨_, State.withStore_some there gives, ok.set ok'⟩

theorem State.Ok.answer (ok : w.Ok texts) {fits : Table → Prop} {right : Table → Table → Prop}
    (answers : ∀ t, t.Ok texts → Answers texts f (fits t) (right t) t) (frames : List Frame) :
    ((∀ t, w.tables[tbl]? = some t → fits t) →
      ∃ w', (w.withStore tbl f).map (fun w' => { w' with frames }) = some w' ∧ w'.Ok texts ∧
        ∀ t t', w.tables[tbl]? = some t → w'.tables[tbl]? = some t' → right t t') ∧
    (∀ w', (w.withStore tbl f).map (fun w' => { w' with frames }) = some w' → w'.Sound texts →
      (∀ t t', w.tables[tbl]? = some t → w'.tables[tbl]? = some t' → right t t') →
        ∀ t, w.tables[tbl]? = some t → fits t) := by
  rcases there : w.tables[tbl]? with _ | t
  · refine ⟨fun _ => ⟨{ w with frames }, ?_, ok, fun _ _ wrong => absurd wrong (by simp)⟩,
      fun _ _ _ _ _ wrong => absurd wrong (by simp)⟩
    unfold State.withStore
    rw [there]
    rfl
  · obtain ⟨keeps, only⟩ := answers t (ok.get there)
    have inside : tbl < w.tables.length := (List.getElem?_eq_some_iff.mp there).1
    constructor
    · intro fit
      obtain ⟨t', gives, ok', isRight⟩ := keeps (fit t rfl)
      refine ⟨{ w with tables := w.tables.set tbl t', frames }, ?_, ok.set ok', ?_⟩
      · rw [State.withStore_some there gives]
        rfl
      · intro before after isBefore isAfter
        cases isBefore
        rw [List.getElem?_set_self inside] at isAfter
        cases isAfter
        exact isRight
    · intro w' stepped sound isRight before isBefore
      cases isBefore
      rcases gives : f t with _ | t'
      · unfold State.withStore at stepped
        rw [there] at stepped
        change ((f t).map _).map _ = _ at stepped
        rw [gives] at stepped
        exact absurd stepped (by simp)
      · rw [State.withStore_some there gives] at stepped
        cases stepped
        have after : (w.tables.set tbl t')[tbl]? = some t' := List.getElem?_set_self inside
        exact only t' gives (sound t' (mem_iff_getElem?.mpr ⟨tbl, after⟩))
          (isRight t t' rfl after)

theorem deletesShown_of_condemned {w w' : State} {tbl : Nat} {found : Option (Nat × Row)}
    {verdict : Verdict} (condemned : w.condemned (.answer verdict key val) =
      if verdict = .delete then found.map (tbl, ·) else none) :
    DeletesShown w (.answer verdict key val) w' ↔ ∀ t t', w.tables[tbl]? = some t →
      w'.tables[tbl]? = some t' → ∀ shown, found = some shown → RightDelete verdict shown t t' := by
  unfold DeletesShown
  rw [condemned]
  constructor
  · intro deletes t t' before after shown isFound isDelete
    refine deletes tbl shown ?_ t t' before after
    rw [if_pos isDelete, isFound]
    rfl
  · intro right tbl' shown' same t t' before after
    by_cases isDelete : verdict = .delete
    · rw [if_pos isDelete] at same
      obtain ⟨shown, isFound, pair⟩ := Option.map_eq_some_iff.mp same
      cases pair
      exact right t t' before after shown' isFound isDelete
    · rw [if_neg isDelete] at same
      exact absurd same (by simp)

variable {frames : List Frame}

theorem deletesShown_walk {walk : Walk} {shown : Nat × Row} {left : List (Nat × Row)}
    (running : w.frames = .walk tbl walk shown left :: frames)
    (verdict : Verdict) (key val : StData) :
    DeletesShown w (.answer verdict key val) w' ↔ ∀ t t', w.tables[tbl]? = some t →
      w'.tables[tbl]? = some t' → RightDelete verdict shown t t' := by
  have condemned : w.condemned (.answer verdict key val) =
      if verdict = .delete then (some shown).map (tbl, ·) else none := by
    cases verdict <;> simp [State.condemned, running]
  rw [deletesShown_of_condemned condemned]
  constructor
  · intro right t t' before after
    exact right t t' before after shown rfl
  · intro right t t' before after other same
    cases same
    exact right t t' before after

theorem deletesShown_update {found : Option (Nat × Row)}
    (running : w.frames = .update tbl found :: frames) (verdict : Verdict) (key val : StData) :
    DeletesShown w (.answer verdict key val) w' ↔ ∀ t t', w.tables[tbl]? = some t →
      w'.tables[tbl]? = some t' → ∀ shown, found = some shown → RightDelete verdict shown t t' := by
  apply deletesShown_of_condemned
  cases verdict <;> cases found <;> simp [State.condemned, running]

theorem State.Ok.found (ok : w.Ok texts) (tbl : Nat) (key : StData) :
    ∃ found, w.found texts tbl key = some found := by
  unfold State.found
  rcases there : w.tables[tbl]? with _ | t
  · exact ⟨none, rfl⟩
  · rcases (ok.get there).shape.find_spec key with ⟨i, row, isFound, alive, -⟩ | ⟨missing, -⟩
    · refine ⟨some (i, row), ?_⟩
      change (t.find texts key >>= _) = _
      rw [isFound]
      change (match t.rows[i]? with
        | some (some row) => some (some (i, row))
        | _ => none) = _
      rw [show t.rows[i]? = some (some row) from alive]
    · refine ⟨none, ?_⟩
      change (t.find texts key >>= _) = _
      rw [missing]
      rfl

theorem State.Ok.call (ok : w.Ok texts) (e : Event)
    (isCall : ∀ verdict key val, e ≠ .answer verdict key val) :
    ∃ w', step texts w e = some w' ∧ w'.Ok texts := by
  have appended : ∀ t' : Table, t'.Ok texts →
      ({ w with tables := w.tables ++ [t'] }).Ok texts := fun t' ok' t mem =>
    (mem_append.mp mem).elim (ok t) fun last => mem_singleton.mp last ▸ ok'
  cases e with
  | init kind => exact ⟨_, rfl, appended _ ⟨shape_empty kind 0 0, rfl⟩⟩
  | insert tbl key val =>
    refine ok.withStore tbl fun t okT => ?_
    obtain ⟨t', gives, shape⟩ := okT.shape.insert key val
    exact ⟨t'.sync, by rw [gives]; rfl, shape.sync⟩
  | lookup tbl key =>
    refine ok.withStore tbl fun t okT => ⟨t, ?_, okT⟩
    rcases okT.shape.find_spec key with ⟨i, row, isFound, -⟩ | ⟨missing, -⟩
    · rw [isFound]
      rfl
    · rw [missing]
      rfl
  | delete tbl key => exact ok.withStore tbl fun t okT => okT.shape.delete key
  | clear tbl => exact ok.withStore tbl fun t _ => ⟨_, rfl, (shape_empty ..).sync⟩
  | cleanupSafe tbl => exact ok.withStore tbl fun t okT => ⟨_, rfl, okT.shape.cleanupSafe⟩
  | copy tbl =>
    simp only [step]
    rcases there : w.tables[tbl]? with _ | t
    · exact ⟨w, rfl, ok⟩
    · exact ⟨_, rfl, appended _ (ok.get there).shape.copy⟩
  | walk tbl walk =>
    simp only [step]
    rcases w.tables[tbl]? with _ | t
    · exact ⟨w, rfl, ok⟩
    · exact ⟨_, rfl, ok⟩
  | update tbl key =>
    obtain ⟨found, isFound⟩ := ok.found tbl key
    refine ⟨{ w with frames := .update tbl found :: w.frames }, ?_, ok⟩
    simp only [step, isFound]
    rfl
  | answer verdict key val => exact absurd rfl (isCall verdict key val)

/-- A fitting event keeps the tables in order and deletes what it should, and only a fitting one
keeps them sound and does. -/
theorem step_fits (ok : w.Ok texts) (e : Event) :
    (Fits texts w e → ∃ w', step texts w e = some w' ∧ w'.Ok texts ∧ DeletesShown w e w') ∧
      ∀ w', step texts w e = some w' → w'.Sound texts → DeletesShown w e w' → Fits texts w e := by
  have calls : (∀ verdict key val, e ≠ .answer verdict key val) → Fits texts w e →
      ∃ w', step texts w e = some w' ∧ w'.Ok texts ∧ DeletesShown w e w' := fun isCall _ => by
    obtain ⟨w', stepped, ok'⟩ := ok.call e isCall
    refine ⟨w', stepped, ok', fun tbl shown condemned => ?_⟩
    cases e with
    | answer verdict key val => exact absurd rfl (isCall verdict key val)
    | _ => exact absurd condemned (by simp [State.condemned])
  cases e with
  | answer verdict key val =>
    rcases running : w.frames with _ | ⟨⟨tbl, walk, shown, left⟩ | ⟨tbl, found⟩, frames⟩
    · simp only [Fits, step, running]
      refine ⟨fun _ => ⟨w, rfl, ok, fun tbl shown condemned => ?_⟩, fun _ _ _ _ => trivial⟩
      exact absurd condemned (by cases verdict <;> simp [State.condemned, running])
    · simp only [Fits, step, running, deletesShown_walk running]
      exact ok.answer (fun t okT => walk.answers okT shown verdict key val) _
    · simp only [Fits, step, running, deletesShown_update running]
      exact ok.answer (fun t okT => updateAnswers okT found verdict key val) _
  | _ => exact ⟨calls (by simp), fun _ _ _ _ => trivial⟩

theorem Good.sound {es : List Event} (good : Good texts w es) : w.Sound texts := by
  cases es with
  | nil => exact good
  | cons e es => exact good.1

/-- From tables in order, the promises hold throughout a run exactly when all its answers fit. -/
theorem good_iff_allFit {es : List Event} (ok : w.Ok texts) :
    Good texts w es ↔ AllFit texts w es := by
  induction es generalizing w with
  | nil => exact ⟨fun _ => trivial, fun _ => ok.sound⟩
  | cons e es ih =>
    obtain ⟨keeps, only⟩ := step_fits ok e
    constructor
    · rintro ⟨-, w', stepped, deletes, good⟩
      have fits := only w' stepped good.sound deletes
      obtain ⟨next, steppedNext, okNext, -⟩ := keeps fits
      cases stepped.symm.trans steppedNext
      refine ⟨fits, fun other steppedOther => ?_⟩
      cases stepped.symm.trans steppedOther
      exact (ih okNext).mp good
    · rintro ⟨fits, later⟩
      obtain ⟨w', stepped, ok', deletes⟩ := keeps fits
      exact ⟨ok.sound, w', stepped, deletes, (ih ok').mpr (later w' stepped)⟩

def State.initial : State := ⟨[], []⟩

/-- Whatever is called and whatever the callbacks answer: in all states of the run the published
counts are the numbers of live rows, every live row is found by its key, no index is out of range
and every `ST_DELETE` takes away the row shown, exactly when every answer fits. -/
theorem run_good (texts : Texts) (es : List Event) :
    Good texts State.initial es ↔ AllFit texts State.initial es :=
  good_iff_allFit fun _ none => absurd none not_mem_nil

/-- A callback of `st_foreach_with_replace` that deletes the row it is shown and answers
`ST_REPLACE` with the words it was shown brings the row back uncounted: the table has one row and
publishes none. -/
theorem replace_after_delete :
    ([.init .num, .insert 0 1 10, .walk 0 .foreachWithReplace, .delete 0 1,
        .answer .replace 1 10].foldlM (step fun _ => []) State.initial).map
        (fun w => w.tables.map fun t => (t.numEntries, t.rows)) = some [(0, [some ⟨0, 1, 10⟩])] ∧
      ¬Good (fun _ => []) State.initial [.init .num, .insert 0 1 10, .walk 0 .foreachWithReplace,
        .delete 0 1, .answer .replace 1 10] := by
  refine ⟨rfl, ?_⟩
  rintro ⟨-, w₁, s₁, -, -, w₂, s₂, -, -, w₃, s₃, -, -, w₄, s₄, -, -, w₅, s₅, -, sound⟩
  cases s₁
  cases s₂
  cases s₃
  cases s₄
  cases s₅
  exact absurd (sound _ (mem_singleton.mpr rfl)).published (by decide)

end Zeo.Capi.St
