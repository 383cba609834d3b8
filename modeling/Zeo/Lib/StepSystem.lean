import Mathlib.Logic.Function.Basic

/-!
# Step systems

States and the actions that may happen in them. Threads that run at once are one system: an action
says whose turn it is, and a lock that is held is a guard of the actions that wait for it. A path is
any sequence of actions, with every state on the way allowed.
-/

namespace Zeo.Lib

structure StepSystem (σ α : Type) where
  start : σ
  step : σ → α → Option σ

namespace StepSystem

variable {σ α : Type} (m : StepSystem σ α)

/-- Some actions lead from one state to another, through allowed states. -/
inductive Path (allowed : σ → Prop) (s : σ) : σ → Prop
  | refl : Path allowed s s
  | next {t u : σ} (a : α) : Path allowed s t → m.step t a = some u → allowed u → Path allowed s u

/-- Some actions lead to a state from the start, through allowed states. -/
def Reach (allowed : σ → Prop) (s : σ) : Prop := m.Path allowed m.start s

def run (s : σ) : List α → Option σ
  | [] => some s
  | a :: as => (m.step s a).bind fun t => run t as

variable {m}

theorem Path.trans {allowed : σ → Prop} {s t u : σ} (first : m.Path allowed s t)
    (second : m.Path allowed t u) : m.Path allowed s u := by
  induction second with
  | refl => exact first
  | next a _ stepped within ih => exact .next a ih stepped within

variable {allowed holds : σ → Prop} {s t : σ}

theorem Path.keeps (kept : ∀ s a s', holds s → m.step s a = some s' → allowed s' → holds s')
    (path : m.Path allowed s t) (begins : holds s) : holds t := by
  induction path with
  | refl => exact begins
  | next a _ stepped within ih => exact kept _ a _ ih stepped within

theorem path_of_run (within : ∀ s, holds s → allowed s) {as : List α}
    (kept : ∀ a ∈ as, ∀ s s', holds s → m.step s a = some s' → holds s')
    (begins : holds s) (ran : m.run s as = some t) : m.Path allowed s t := by
  induction as generalizing s with
  | nil =>
    cases ran
    exact .refl
  | cons a as ih =>
    obtain ⟨u, stepped, rest⟩ := Option.bind_eq_some_iff.mp ran
    have next := kept a (List.mem_cons_self ..) s u begins stepped
    have later : ∀ b ∈ as, ∀ s s', holds s → m.step s b = some s' → holds s' :=
      fun b mem => kept b (List.mem_cons_of_mem _ mem)
    exact (Path.next a .refl stepped (within u next)).trans (ih later next rest)

theorem path_run {as : List α} {s t : σ} (ran : m.run s as = some t) : m.Path (fun _ => True) s t :=
  path_of_run (fun _ _ => trivial) (fun _ _ _ _ _ _ => trivial) trivial ran

end StepSystem

end Zeo.Lib
