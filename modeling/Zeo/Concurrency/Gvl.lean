import Mathlib.Data.List.Range
import Zeo.Lib.StepSystem

/-!
# The armed lock of the scheduler

`acquire` takes a ticket and waits until it is served; `release` lets the next ticket in, if the
thread that calls it is the holder. The other calls are made of these two, and each region under
the mutex of the state is one action here. A guard that is still to be dropped stands on the stack
of its thread, and dropping it is the same action on return and on unwinding.

Whoever comes out of `acquire` and has not given the lock up since is inside.
-/

namespace Zeo.Concurrency

open Zeo.Lib Function List Option

abbrev ThreadId := Nat

/-- The tickets are `u64`, and no run draws 2 ^ 64 of them. -/
structure GvlState where
  nextTicket : Nat
  nowServing : Nat
  holder : Option ThreadId

/-- The calls that wait in `acquire`. -/
inductive Call where
  | acquire
  | hold
  | yieldNow
  /-- The `ReacquireGuard` of `without`, after a wrapped call that ended with the lock or not. -/
  | without (wrapped : Bool)
  deriving DecidableEq

inductive Guard where
  /-- A `HoldGuard`. -/
  | hold
  /-- An open call of `without`, which has a `ReacquireGuard` if it released the lock. -/
  | without (released : Bool)
  deriving DecidableEq

inductive Place where
  | running
  /-- `holds` has answered yes, and the `release` of `yield_now` comes next. -/
  | yielding
  /-- The same in `without`. -/
  | suspending
  /-- Before the ticket. -/
  | acquiring (call : Call)
  | waiting (ticket : Nat) (call : Call)
  deriving DecidableEq

/-- A call of `yield_now` or `without` that has returned. -/
structure Returned where
  thread : ThreadId
  /-- Whether the thread held the lock when it called. -/
  before : Bool
  after : Bool
  /-- Whether it held the lock when the wrapped call ended. -/
  wrapped : Bool
  deriving DecidableEq

structure World where
  state : GvlState
  place : ThreadId → Place
  guards : ThreadId → List Guard
  /-- Whether a thread has come out of `acquire` and has not given the lock up since. -/
  inside : ThreadId → Bool
  granted : List Nat
  returned : List Returned

namespace World

/-- Just after `arm`. Threads that ran before it may have guards of an unarmed `hold` to drop. -/
def arm (caller : ThreadId) (guards : ThreadId → List Guard) : World where
  state := ⟨1, 0, some caller⟩
  place _ := .running
  guards := guards
  inside t := t = caller
  granted := [0]
  returned := []

variable (w : World) (t : ThreadId)

def goto (place : Place) : World :=
  { w with place := update w.place t place }

def push (guard : Guard) : World :=
  { w with guards := update w.guards t (guard :: w.guards t) }

def pop : World :=
  { w with guards := update w.guards t (w.guards t).tail }

def record (before wrapped : Bool) : World :=
  { w with returned := w.returned ++ [⟨t, before, w.state.holder = some t, wrapped⟩] }

def release : World :=
  if w.state.holder ≠ some t then w
  else { w with
    state := { w.state with holder := none, nowServing := w.state.nowServing + 1 }
    inside := update w.inside t false }

/-- The first half of `acquire`. -/
def takeTicket (call : Call) : World :=
  { w.goto t (.waiting w.state.nextTicket call) with
    state := { w.state with nextTicket := w.state.nextTicket + 1 } }

/-- The second half of `acquire`, once the ticket is served. -/
def enter : World :=
  { w.goto t .running with
    state := { w.state with holder := some t }
    inside := update w.inside t true
    granted := w.granted ++ [w.state.nowServing] }

/-- What follows `acquire` in each of the calls. -/
def resume : Call → World
  | .acquire => w
  | .hold => w.push t .hold
  | .yieldNow => w.record t true false
  | .without wrapped => w.record t true wrapped

end World

inductive Action where
  | acquire
  | release
  | yieldNow
  | without
  | hold
  | holdReentrant
  | leave
  /-- The `release` inside of `yield_now` or `without`. -/
  | giveUp
  | ticket
  | served
  deriving DecidableEq

/-- One action of a thread. `acquire` and `hold` are called by threads that do not hold the lock. -/
def gvlStep (w : World) : ThreadId × Action → Option World
  | (t, action) =>
    let mine : Bool := w.state.holder = some t
    match w.place t, action with
    | .running, .acquire => if mine then none else some (w.goto t (.acquiring .acquire))
    | .running, .hold => if mine then none else some (w.goto t (.acquiring .hold))
    | .running, .release => some (w.release t)
    | .running, .yieldNow =>
      some (if mine then w.goto t .yielding else w.record t false false)
    | .running, .without =>
      some (if mine then w.goto t .suspending else w.push t (.without false))
    | .running, .holdReentrant => some (if mine then w else w.goto t (.acquiring .hold))
    | .running, .leave =>
      match w.guards t with
      | [] => none
      | .hold :: _ => some ((w.pop t).release t)
      | .without true :: _ => some ((w.pop t).goto t (.acquiring (.without mine)))
      | .without false :: _ => some ((w.pop t).record t false mine)
    | .yielding, .giveUp => some ((w.release t).goto t (.acquiring .yieldNow))
    | .suspending, .giveUp => some (((w.release t).push t (.without true)).goto t .running)
    | .acquiring call, .ticket => some (w.takeTicket t call)
    | .waiting ticket call, .served =>
      if w.state.nowServing = ticket then some ((w.enter t).resume t call) else none
    | _, _ => none

def gvl (caller : ThreadId) (guards : ThreadId → List Guard) : StepSystem World (ThreadId × Action) where
  start := .arm caller guards
  step := gvlStep

def GvlState.taken (s : GvlState) : Nat := s.nowServing + s.holder.toList.length

structure Sound (w : World) : Prop where
  inside : ∀ t, w.inside t = true ↔ w.state.holder = some t
  granted : w.granted = range w.state.taken
  issued : w.state.taken ≤ w.state.nextTicket
  waiting : ∀ t ticket call, w.place t = .waiting ticket call →
    w.state.taken ≤ ticket ∧ ticket < w.state.nextTicket
  apart : ∀ t t' ticket call call', w.place t = .waiting ticket call →
    w.place t' = .waiting ticket call' → t = t'
  returned : ∀ r ∈ w.returned, r.wrapped = false → r.after = r.before

namespace Sound

variable {w : World} {t : ThreadId}

theorem arm (caller : ThreadId) (guards : ThreadId → List Guard) : Sound (.arm caller guards) where
  inside t := by simp [World.arm, eq_comm]
  granted := rfl
  issued := Nat.le_refl _
  waiting t ticket call here := by cases here
  apart t t' ticket call call' here := by cases here
  returned r mem := by cases mem

theorem goto (sound : Sound w) {place : Place} (free : ∀ ticket call, place ≠ .waiting ticket call) :
    Sound (w.goto t place) := by
  have stays : ∀ t' ticket call, (w.goto t place).place t' = .waiting ticket call →
      w.place t' = .waiting ticket call := by
    intro t' ticket call here
    change update w.place t place t' = _ at here
    by_cases same : t' = t
    · rw [same, update_self] at here
      exact absurd here (free ticket call)
    · rwa [update_of_ne same] at here
  refine { sound with waiting := ?_, apart := ?_ }
  · intro t' ticket call here
    exact sound.waiting t' ticket call (stays t' ticket call here)
  · intro t₁ t₂ ticket call call' first second
    exact sound.apart t₁ t₂ ticket call call' (stays _ _ _ first) (stays _ _ _ second)

theorem push (sound : Sound w) (guard : Guard) : Sound (w.push t guard) := { sound with }

theorem pop (sound : Sound w) : Sound (w.pop t) := { sound with }

theorem record (sound : Sound w) {before wrapped : Bool}
    (kept : wrapped = false → decide (w.state.holder = some t) = before) :
    Sound (w.record t before wrapped) := by
  refine { sound with returned := ?_ }
  intro r mem
  rcases mem_append.mp mem with old | new
  · exact sound.returned r old
  · rw [mem_singleton.mp new]
    exact kept

theorem release (sound : Sound w) : Sound (w.release t) := by
  unfold World.release
  split
  · exact sound
  · rename_i mine
    have holder : w.state.holder = some t := not_not.mp mine
    have taken : w.state.taken = w.state.nowServing + 1 := by
      rw [GvlState.taken, holder]
      rfl
    refine { sound with inside := ?_, granted := ?_, issued := ?_, waiting := ?_ }
    · intro t'
      have before := sound.inside t'
      rw [holder] at before
      by_cases same : t' = t
      · simp [same]
      · simpa [update_of_ne same, Ne.symm same] using before
    · rw [sound.granted, taken]
      rfl
    · have issued := sound.issued
      rw [taken] at issued
      exact issued
    · intro t' ticket call here
      have before := sound.waiting t' ticket call here
      rw [taken] at before
      exact before

theorem takeTicket (sound : Sound w) (call : Call) : Sound (w.takeTicket t call) := by
  have old : ∀ t' ticket call', (w.takeTicket t call).place t' = .waiting ticket call' →
      t' = t ∧ ticket = w.state.nextTicket ∨ t' ≠ t ∧ w.place t' = .waiting ticket call' := by
    intro t' ticket call' here
    change update w.place t _ t' = _ at here
    by_cases same : t' = t
    · rw [same, update_self] at here
      cases here
      exact .inl ⟨same, rfl⟩
    · rw [update_of_ne same] at here
      exact .inr ⟨same, here⟩
  have issued := sound.issued
  refine { sound with issued := Nat.le_succ_of_le issued, waiting := ?_, apart := ?_ }
  · intro t' ticket call' here
    change w.state.taken ≤ ticket ∧ ticket < w.state.nextTicket + 1
    rcases old t' ticket call' here with ⟨_, rfl⟩ | ⟨_, before⟩
    · exact ⟨issued, Nat.lt_succ_self _⟩
    · have bounds := sound.waiting t' ticket call' before
      omega
  · intro t₁ t₂ ticket call₁ call₂ first second
    rcases old t₁ ticket call₁ first with ⟨same₁, new₁⟩ | ⟨_, old₁⟩
    · rcases old t₂ ticket call₂ second with ⟨same₂, _⟩ | ⟨_, old₂⟩
      · rw [same₁, same₂]
      · have bounds := sound.waiting t₂ ticket call₂ old₂
        omega
    · rcases old t₂ ticket call₂ second with ⟨_, new₂⟩ | ⟨_, old₂⟩
      · have bounds := sound.waiting t₁ ticket call₁ old₁
        omega
      · exact sound.apart t₁ t₂ ticket call₁ call₂ old₁ old₂

theorem enter (sound : Sound w) {call : Call} (here : w.place t = .waiting w.state.nowServing call) :
    Sound (w.enter t) := by
  have bounds := sound.waiting t _ call here
  have nobody : w.state.holder = none := by
    cases holder : w.state.holder with
    | none => rfl
    | some t' =>
      rw [GvlState.taken, holder] at bounds
      exact absurd bounds.1 (Nat.not_succ_le_self _)
  have taken : w.state.taken = w.state.nowServing := by
    rw [GvlState.taken, nobody]
    rfl
  have moved : Sound (w.goto t .running) := sound.goto (by simp)
  refine { moved with inside := ?_, granted := ?_, issued := ?_, waiting := ?_ }
  · intro t'
    have before := sound.inside t'
    rw [nobody] at before
    by_cases same : t' = t
    · simp [World.enter, same]
    · simpa [World.enter, update_of_ne same, Ne.symm same] using before
  · change w.granted ++ [w.state.nowServing] = range (w.state.nowServing + 1)
    rw [sound.granted, taken, range_succ]
  · change w.state.nowServing + 1 ≤ w.state.nextTicket
    omega
  · intro t' ticket call' waits
    have later := moved.waiting t' ticket call' waits
    change update w.place t .running t' = _ at waits
    have other : t' ≠ t := by
      rintro rfl
      rw [update_self] at waits
      cases waits
    have different : ticket ≠ w.state.nowServing := by
      rintro rfl
      rw [update_of_ne other] at waits
      exact other (sound.apart t' t _ call' call waits here)
    change w.state.taken ≤ ticket ∧ ticket < w.state.nextTicket at later
    change w.state.nowServing + 1 ≤ ticket ∧ ticket < w.state.nextTicket
    omega

theorem resume (sound : Sound w) (holder : w.state.holder = some t) (call : Call) :
    Sound (w.resume t call) := by
  cases call with
  | acquire => exact sound
  | hold => exact sound.push _
  | yieldNow | without _ => exact sound.record fun _ => decide_eq_true holder

theorem step (sound : Sound w) {w' : World} {a : ThreadId × Action}
    (stepped : gvlStep w a = some w') : Sound w' := by
  obtain ⟨t, a⟩ := a
  simp only [gvlStep] at stepped
  split at stepped
  · -- `acquire`
    split at stepped <;> cases stepped
    exact sound.goto (by simp)
  · -- `hold`
    split at stepped <;> cases stepped
    exact sound.goto (by simp)
  · cases stepped
    exact sound.release
  · -- `yield_now`
    cases stepped
    split
    · exact sound.goto (by simp)
    · rename_i other
      exact sound.record fun _ => eq_false_of_ne_true other
  · -- `without`
    cases stepped
    split
    · exact sound.goto (by simp)
    · exact sound.push _
  · -- `hold_reentrant`
    cases stepped
    split
    · exact sound
    · exact sound.goto (by simp)
  · -- a guard is dropped
    split at stepped <;> cases stepped
    · exact sound.pop.release
    · exact sound.pop.goto (by simp)
    · exact sound.pop.record id
  · cases stepped
    exact sound.release.goto (by simp)
  · cases stepped
    exact (sound.release.push _).goto (by simp)
  · cases stepped
    exact sound.takeTicket _
  · rename_i ticket call here
    simp only [ite_none_right_eq_some, some.injEq] at stepped
    obtain ⟨rfl, rfl⟩ := stepped
    exact (sound.enter here).resume rfl call
  · cases stepped

end Sound

/-- In every state that any interleaving reaches after `arm`, no two threads are inside, the tickets
have been served in the order in which they were handed out, a `release` of a thread that does not
hold the lock changes nothing, and whoever came back from `yield_now`, or from a `without` whose
wrapped call left it without the lock as it began, holds the lock if it did before and only then. -/
theorem gvl_excludes (caller : ThreadId) (guards : ThreadId → List Guard) (w : World)
    (reached : (gvl caller guards).Reach (fun _ => True) w) :
    (∀ t, w.inside t = true ↔ w.state.holder = some t) ∧
    (∀ t t', w.inside t = true → w.inside t' = true → t = t') ∧
    w.granted = range w.granted.length ∧
    (∀ t, w.inside t = false → w.release t = w) ∧
    ∀ r ∈ w.returned, r.wrapped = false → r.after = r.before := by
  have sound : Sound w :=
    reached.keeps (fun _ _ _ sound stepped _ => sound.step stepped) (.arm caller guards)
  refine ⟨sound.inside, ?_, ?_, ?_, sound.returned⟩
  · intro t t' first second
    have holder := (sound.inside t).mp first
    rw [(sound.inside t').mp second] at holder
    exact (some.inj holder).symm
  · rw [sound.granted, length_range]
  · intro t outside
    have other : w.state.holder ≠ some t := by
      intro holder
      rw [(sound.inside t).mpr holder] at outside
      cases outside
    exact if_pos other

/-- Two threads that pass the lock on: the second waits in `hold`, and the first comes back through
`yield_now` after it. -/
def passedOn : List (ThreadId × Action) :=
  [(1, .hold), (1, .ticket), (0, .yieldNow), (0, .giveUp), (0, .ticket), (1, .served), (1, .leave),
    (0, .served)]

theorem gvl_excludes_passed_on : ∃ w, (gvl 0 fun _ => []).Reach (fun _ => True) w ∧
    w.granted = [0, 1, 2] ∧ w.returned = [⟨0, true, true, false⟩] ∧
    (∀ t, w.inside t = true → t = 0) ∧ w.release 1 = w := by
  have reached := @StepSystem.path_run _ _ (gvl 0 fun _ => []) passedOn (.arm 0 fun _ => []) _ rfl
  have excludes := gvl_excludes 0 _ _ reached
  exact ⟨_, reached, rfl, rfl, fun t inside => excludes.2.1 t 0 inside rfl, excludes.2.2.2.1 1 rfl⟩

/-- A thread without the lock calls `without`, and takes the lock in the wrapped call. -/
def takenInside : List (ThreadId × Action) :=
  [(0, .release), (1, .without), (1, .acquire), (1, .ticket), (1, .served), (1, .leave)]

theorem without_returns_holding : ∃ w, (gvl 0 fun _ => []).Reach (fun _ => True) w ∧
    ∃ r ∈ w.returned, r.before = false ∧ r.after = true ∧ w.inside r.thread = true :=
  ⟨_, @StepSystem.path_run _ _ _ takenInside _ _ rfl, ⟨1, false, true, true⟩, mem_singleton_self _,
    rfl, rfl, rfl⟩

end Zeo.Concurrency
