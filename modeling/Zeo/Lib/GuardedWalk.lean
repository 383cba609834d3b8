import Mathlib.Logic.Relation
import Mathlib.Data.List.Basic

/-!
# Walks with a set of nodes seen

A depth-first walk over a graph that may have cycles. Guarded nodes are entered in a list when they
are met, and met again they are passed over; along the edges of the others a rank falls. At each
node the walk acts on a state, and an action that fails ends the walk. A walk that succeeds has
acted on everything reachable, and with enough fuel it fails only where an action fails.
-/

namespace Zeo.Lib

open List List.Subset

structure Walker (V σ ε : Type) where
  guarded : V → Bool
  act : V → σ → Except ε σ
  edges : V → List V
  tired : ε

namespace Walker

variable {V σ ε : Type} (w : Walker V σ ε)

def enter (v : V) (seen : List V) : List V := if w.guarded v then seen ++ [v] else seen

def walk [DecidableEq V] : Nat → V → List V × σ → Except ε (List V × σ)
  | 0, _, _ => .error w.tired
  | fuel + 1, v, (seen, s) =>
    if w.guarded v && seen.contains v then .ok (seen, s)
    else do
      let s ← w.act v s
      (w.edges v).foldlM (fun st e => walk fuel e st) (w.enter v seen, s)

def Reach : V → V → Prop := Relation.ReflTransGen fun a b => b ∈ w.edges a

theorem enter_sub (v : V) (seen : List V) : seen ⊆ w.enter v seen := by
  unfold enter
  split
  · exact subset_append_left _ _
  · exact refl _

variable {seen : List V}

theorem mem_enter {u v : V} (mem : u ∈ w.enter v seen) :
    u ∈ seen ∨ u = v ∧ w.guarded v = true := by
  unfold enter at mem
  split at mem
  · rename_i guarded
    rcases mem_append.mp mem with old | new
    · exact .inl old
    · exact .inr ⟨mem_singleton.mp new, guarded⟩
  · exact .inl mem

/-- The node and what follows it without a guard has been acted on, up to guarded nodes seen. -/
inductive Handled (holds : V → Prop) (seen : List V) : V → Prop
  | guarded {v : V} : w.guarded v = true → v ∈ seen → Handled holds seen v
  | plain {v : V} : w.guarded v = false → holds v → (∀ e ∈ w.edges v, Handled holds seen e) →
    Handled holds seen v

variable {w} {v : V}

theorem Handled.mono {holds holds' : V → Prop} {seen' : List V}
    (handled : w.Handled holds seen v) (keeps : ∀ u, holds u → holds' u) (more : seen ⊆ seen') :
    w.Handled holds' seen' v := by
  induction handled with
  | guarded guard mem => exact .guarded guard (more mem)
  | plain free here _ ih => exact .plain free (keeps _ here) ih

/-- What a part of a walk has done: the list has grown, and what is new in it has been acted on and
its edges handled. -/
structure Did (w : Walker V σ ε) (holds : σ → V → Prop) (st st' : List V × σ) : Prop where
  grows : st.1 ⊆ st'.1
  keeps : ∀ u, holds st.2 u → holds st'.2 u
  fresh : ∀ u ∈ st'.1, u ∉ st.1 → holds st'.2 u ∧ ∀ e ∈ w.edges u, w.Handled (holds st'.2) st'.1 e

variable {holds : σ → V → Prop}

theorem Did.refl (st : List V × σ) : w.Did holds st st where
  grows := List.Subset.refl _
  keeps _ here := here
  fresh _ mem unseen := absurd mem unseen

variable {st' : List V × σ}

theorem Did.trans {st st'' : List V × σ} (first : w.Did holds st st')
    (second : w.Did holds st' st'') : w.Did holds st st'' where
  grows := List.Subset.trans first.grows second.grows
  keeps u here := second.keeps u (first.keeps u here)
  fresh u mem unseen := by
    by_cases early : u ∈ st'.1
    · obtain ⟨here, edges⟩ := first.fresh u early unseen
      exact ⟨second.keeps u here, fun e edge => (edges e edge).mono second.keeps second.grows⟩
    · exact second.fresh u mem early

variable {f : V → List V × σ → Except ε (List V × σ)} {st : List V × σ} {es : List V}

theorem foldlM_cons_ok {β : Type} {f : V → β → Except ε β} {st st' : β} {e : V}
    (ran : (e :: es).foldlM (fun st e => f e st) st = .ok st') :
    ∃ mid, f e st = .ok mid ∧ es.foldlM (fun st e => f e st) mid = .ok st' := by
  rw [foldlM_cons] at ran
  cases first : f e st with
  | error reason =>
    rw [first] at ran
    cases ran
  | ok mid =>
    rw [first] at ran
    exact ⟨mid, rfl, ran⟩

theorem did_foldlM
    (step : ∀ e st st', f e st = .ok st' → w.Did holds st st' ∧ w.Handled (holds st'.2) st'.1 e)
    (ran : es.foldlM (fun st e => f e st) st = .ok st') :
    w.Did holds st st' ∧ ∀ e ∈ es, w.Handled (holds st'.2) st'.1 e := by
  induction es generalizing st with
  | nil =>
    cases ran
    exact ⟨.refl _, fun _ edge => absurd edge not_mem_nil⟩
  | cons e es ih =>
    obtain ⟨mid, first, later⟩ := foldlM_cons_ok ran
    obtain ⟨did, handled⟩ := step e st mid first
    obtain ⟨rest, others⟩ := ih later
    refine ⟨did.trans rest, fun u edge => ?_⟩
    rcases mem_cons.mp edge with rfl | later
    · exact handled.mono rest.keeps rest.grows
    · exact others u later

/-- What holds of a node once it has been acted on, and goes on holding. -/
structure Settles (w : Walker V σ ε) (holds : σ → V → Prop) : Prop where
  here : ∀ v s s', w.act v s = .ok s' → holds s' v
  keeps : ∀ v s s', w.act v s = .ok s' → ∀ u, holds s u → holds s' u

variable {fuel : Nat}

/-- A walk that succeeds passes over a node met before, or acts on it and walks its edges. -/
theorem walk_ok [DecidableEq V] (ran : w.walk (fuel + 1) v st = .ok st') :
    (w.guarded v = true ∧ v ∈ st.1 ∧ st' = st) ∨
      ∃ s, w.act v st.2 = .ok s ∧
        (w.edges v).foldlM (fun st e => w.walk fuel e st) (w.enter v st.1, s) = .ok st' := by
  unfold walk at ran
  split at ran
  · rename_i met
    cases ran
    obtain ⟨guarded, mem⟩ := Bool.and_eq_true_iff.mp met
    exact .inl ⟨guarded, contains_iff_mem.mp mem, rfl⟩
  · cases acted : w.act v st.2 with
    | error reason =>
      rw [acted] at ran
      cases ran
    | ok s =>
      rw [acted] at ran
      exact .inr ⟨s, rfl, ran⟩

theorem did_walk [DecidableEq V] (settles : w.Settles holds) (ran : w.walk fuel v st = .ok st') :
    w.Did holds st st' ∧ w.Handled (holds st'.2) st'.1 v := by
  induction fuel generalizing v st st' with
  | zero => cases ran
  | succ fuel ih =>
    obtain ⟨guarded, mem, rfl⟩ | ⟨s, acted, loop⟩ := walk_ok ran
    · exact ⟨.refl _, .guarded guarded mem⟩
    · obtain ⟨did, edges⟩ := did_foldlM (fun e st st' => ih) loop
      have holdsHere : holds st'.2 v := did.keeps v (settles.here v st.2 s acted)
      have grown : st.1 ⊆ st'.1 := List.Subset.trans (w.enter_sub v st.1) did.grows
      refine ⟨⟨grown, fun u here => did.keeps u (settles.keeps v st.2 s acted u here), ?_⟩, ?_⟩
      · intro u mem unseen
        by_cases entered : u ∈ w.enter v st.1
        · rcases w.mem_enter entered with old | ⟨rfl, _⟩
          · exact absurd old unseen
          · exact ⟨holdsHere, edges⟩
        · exact did.fresh u mem entered
      · cases guarded : w.guarded v with
        | false => exact .plain guarded holdsHere edges
        | true =>
          refine .guarded guarded (did.grows ?_)
          simp [enter, guarded]

theorem walk_settles [DecidableEq V] (settles : w.Settles holds) {v u : V} {s : σ}
    (ran : w.walk fuel v ([], s) = .ok st') (reach : w.Reach v u) :
    holds st'.2 u := by
  obtain ⟨did, handled⟩ := did_walk settles ran
  have edgesHandled : ∀ a, w.Handled (holds st'.2) st'.1 a →
      holds st'.2 a ∧ ∀ e ∈ w.edges a, w.Handled (holds st'.2) st'.1 e := by
    rintro a (⟨_, mem⟩ | ⟨_, here, edges⟩)
    · exact did.fresh a mem not_mem_nil
    · exact ⟨here, edges⟩
  have last : w.Handled (holds st'.2) st'.1 u := by
    induction reach with
    | refl => exact handled
    | tail _ edge ih => exact (edgesHandled _ ih).2 _ edge
  exact (edgesHandled u last).1

theorem foldlM_keeps {β : Type} {holds : β → Prop} {f : V → β → Except ε β}
    (step : ∀ e ∈ es, ∀ st st', holds st → f e st = .ok st' → holds st') {st st' : β}
    (here : holds st) (ran : es.foldlM (fun st e => f e st) st = .ok st') : holds st' := by
  induction es generalizing st with
  | nil =>
    cases ran
    exact here
  | cons e es ih =>
    obtain ⟨mid, first, rest⟩ := foldlM_cons_ok ran
    exact ih (fun u later => step u (mem_cons_of_mem _ later))
      (step e mem_cons_self st mid here first) rest

/-- What every action on a part of the graph keeps, a walk inside that part keeps. -/
theorem walk_keeps [DecidableEq V] {inside : V → Prop} {holds : σ → Prop}
    (closed : ∀ v, inside v → ∀ e ∈ w.edges v, inside e)
    (keeps : ∀ v s s', inside v → w.act v s = .ok s' → holds s → holds s')
    (within : inside v) (ran : w.walk fuel v st = .ok st') (here : holds st.2) : holds st'.2 := by
  induction fuel generalizing v st st' with
  | zero => cases ran
  | succ fuel ih =>
    obtain ⟨-, -, rfl⟩ | ⟨s, acted, loop⟩ := walk_ok ran
    · exact here
    · have start : holds s := keeps v st.2 s within acted here
      have step : ∀ e ∈ w.edges v, ∀ st st', holds st.2 → w.walk fuel e st = .ok st' →
          holds st'.2 :=
        fun e edge st st' now next => ih (closed v within e edge) next now
      exact foldlM_keeps step start loop

/-- The guarded nodes of a part of the graph are among finitely many, and behind a node without a
guard the rank falls. -/
structure Bounded (w : Walker V σ ε) (inside : V → Prop) (all : List V) (rank : V → Nat)
    (top : Nat) : Prop where
  closed : ∀ v, inside v → ∀ e ∈ w.edges v, inside e
  known : ∀ v, inside v → w.guarded v = true → v ∈ all
  rank_le : ∀ v, inside v → rank v ≤ top
  falls : ∀ v, inside v → w.guarded v = false → ∀ e ∈ w.edges v, rank e < rank v

/-- How many of the guarded nodes are not yet seen. -/
def unseen [DecidableEq V] (all seen : List V) : Nat := (all.filter fun v => !seen.contains v).length

theorem unseen_anti [DecidableEq V] {all seen' : List V} (more : seen ⊆ seen') :
    unseen all seen' ≤ unseen all seen := by
  unfold unseen
  rw [← countP_eq_length_filter, ← countP_eq_length_filter]
  refine countP_mono_left fun v _ fresh => ?_
  rw [Bool.not_eq_true', contains_eq_mem, decide_eq_false_iff_not] at fresh ⊢
  exact fun mem => fresh (more mem)

theorem unseen_snoc [DecidableEq V] {all : List V} (mem : v ∈ all) (fresh : v ∉ seen) :
    unseen all (seen ++ [v]) < unseen all seen := by
  induction all with
  | nil => cases mem
  | cons u all ih =>
    have less : unseen all (seen ++ [v]) ≤ unseen all seen :=
      unseen_anti (subset_append_left _ _)
    unfold unseen at ih less ⊢
    by_cases same : u = v
    · subst same
      simp [fresh] at less ⊢
      omega
    · have there : v ∈ all := (mem_cons.mp mem).resolve_left (Ne.symm same)
      have shrinks := ih there
      by_cases old : u ∈ seen
      · simpa [old] using shrinks
      · simpa [old, same] using shrinks

variable {inside : V → Prop} {all : List V} {rank : V → Nat} {top : Nat}

def need [DecidableEq V] (all seen : List V) (top rank : Nat) : Nat :=
  unseen all seen * (top + 1) + rank + 1

/-- The end of a walk that is not cut short: success, or the failure of an action. -/
def Concludes (w : Walker V σ ε) (inside : V → Prop) (seen : List V) :
    Except ε (List V × σ) → Prop
  | .ok st' => seen ⊆ st'.1
  | .error reason => ∃ u s, inside u ∧ w.act u s = .error reason

theorem Concludes.anti {seen' : List V} {out : Except ε (List V × σ)} (less : seen ⊆ seen')
    (ends : w.Concludes inside seen' out) : w.Concludes inside seen out := by
  cases out with
  | error reason => exact ends
  | ok st' => exact List.Subset.trans less ends

theorem concludes_foldlM
    (step : ∀ e ∈ es, ∀ st : List V × σ, seen ⊆ st.1 → w.Concludes inside st.1 (f e st))
    (st : List V × σ) (more : seen ⊆ st.1) :
    w.Concludes inside st.1 (es.foldlM (fun st e => f e st) st) := by
  induction es generalizing st with
  | nil => exact refl _
  | cons e es ih =>
    rw [foldlM_cons]
    have first := step e mem_cons_self st more
    cases ran : f e st with
    | error reason =>
      rw [ran] at first
      exact first
    | ok mid =>
      rw [ran] at first
      have rest := ih (fun u later => step u (mem_cons_of_mem _ later)) mid
        (List.Subset.trans more first)
      exact rest.anti first

theorem walk_concludes [DecidableEq V] (bounded : w.Bounded inside all rank top) (fuel : Nat)
    (v : V) (st : List V × σ) (within : inside v) (enough : need all st.1 top (rank v) ≤ fuel) :
    w.Concludes inside st.1 (w.walk fuel v st) := by
  induction fuel generalizing v st with
  | zero => exact absurd enough (Nat.not_succ_le_zero _)
  | succ fuel ih =>
    obtain ⟨seen, s⟩ := st
    unfold walk
    split
    · exact refl _
    · rename_i unmet
      cases acted : w.act v s with
      | error reason => exact ⟨v, s, within, acted⟩
      | ok s₁ =>
        have loop : w.Concludes inside (w.enter v seen)
            ((w.edges v).foldlM (fun st e => w.walk fuel e st) (w.enter v seen, s₁)) := by
          refine concludes_foldlM (fun e edge st more => ?_) _ (refl _)
          refine ih e st (bounded.closed v within e edge) ?_
          have fewer : unseen all st.1 ≤ unseen all (w.enter v seen) := unseen_anti more
          have low := bounded.rank_le e (bounded.closed v within e edge)
          change unseen all seen * (top + 1) + rank v + 1 ≤ fuel + 1 at enough
          unfold need
          cases guarded : w.guarded v with
          | true =>
            -- A guarded node is used up, which pays for any rank.
            rw [guarded, Bool.true_and, contains_eq_mem, decide_eq_true_eq] at unmet
            have shrinks := unseen_snoc (bounded.known v within guarded) unmet
            have entered : w.enter v seen = seen ++ [v] := if_pos guarded
            rw [entered] at fewer
            have paid : (unseen all st.1 + 1) * (top + 1) ≤ unseen all seen * (top + 1) :=
              Nat.mul_le_mul_right _ (by omega)
            rw [Nat.add_mul] at paid
            omega
          | false =>
            have falls := bounded.falls v within guarded e edge
            have entered : w.enter v seen = seen := by simp [enter, guarded]
            rw [entered] at fewer
            have kept : unseen all st.1 * (top + 1) ≤ unseen all seen * (top + 1) :=
              Nat.mul_le_mul_right _ fewer
            omega
        exact loop.anti (w.enter_sub v seen)

end Walker

end Zeo.Lib
