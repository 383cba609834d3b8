import Mathlib.Algebra.BigOperators.Group.Finset.Basic
import Mathlib.Algebra.Order.BigOperators.Group.Finset
import Zeo.Concurrency.Gvl

/-!
# Interrupts and the counter of the pending ones

A thread has a slot for what `Thread#kill` and `Thread#raise` post, and two bits for the timer and
the collector. A checkpoint looks at none of them while the counter of the whole process is zero.
The slot or the bit is written first, and the counter follows in an access of its own; such accesses
that are still to come are counted beside it.
-/

namespace Zeo.Interrupts

open Zeo.Lib Zeo.Concurrency Function Finset

/-- `INT_TIMER` and `INT_GC`. Nothing posts `INT_PENDING`. -/
inductive Bit where
  | timer
  | gc
  deriving DecidableEq

inductive InterruptKind where
  | kill
  | raise (exc : Nat)
  deriving DecidableEq

structure RThread where
  interrupt : Option InterruptKind
  ints : Bit → Bool
  bodyEntered : Bool
  unwinding : Bool
  posted : List InterruptKind
  raised : List InterruptKind

def RThread.build (isMain : Bool) : RThread := ⟨none, fun _ => false, isMain, false, [], []⟩

def RThread.weight (r : RThread) : Nat :=
  r.interrupt.toList.length + ((r.ints .timer).toNat + (r.ints .gc).toNat)

structure World where
  threads : ThreadId → RThread
  spawned : Finset ThreadId
  live : Finset ThreadId
  /-- The counter, an `AtomicU32`: -1 is its largest word, and never are 2 ^ 32 posts pending. -/
  pendingGlobal : Int
  /-- Accesses to the counter that are still to come. -/
  adds : Nat
  subs : Nat

namespace World

variable (w : World)

/-- The counter once all accesses are done. -/
def eventual : Int := w.pendingGlobal + w.adds - w.subs

def start : World := ⟨fun t => .build (t = 0), {0}, {0}, 0, 0, 0⟩

variable (t : ThreadId)

def set (r : RThread) : World := { w with threads := update w.threads t r }

/-- `thread_kill` and `thread_raise`. -/
def post (kind : InterruptKind) : World :=
  let r := w.threads t
  { w.set t { r with interrupt := some kind, posted := r.posted ++ [kind] } with
    adds := if r.interrupt.isNone then w.adds + 1 else w.adds }

/-- `ThreadCtx::post`. -/
def postBit (bit : Bit) : World :=
  let r := w.threads t
  { w.set t { r with ints := update r.ints bit true } with
    adds := if r.ints bit then w.adds else w.adds + 1 }

/-- `ThreadCtx::take`. -/
def takeBit (bit : Bit) : World :=
  let r := w.threads t
  { w.set t { r with ints := update r.ints bit false } with
    subs := if r.ints bit then w.subs + 1 else w.subs }

/-- `deliver_pending`, under a caller that raises what it is given or something else for it. -/
def deliverPending (passed : Bool) (w : World) (t : ThreadId) : World :=
  let r := w.threads t
  match r.interrupt with
  | none => w
  | some kind =>
    { w.set t { r with
        interrupt := none
        unwinding := true
        raised := if passed then r.raised ++ [kind] else r.raised } with
      subs := w.subs + 1 }

def checkInterrupt : World → ThreadId → World := deliverPending true

/-- The checkpoint of `queue_pop_nonblock`, which answers every interrupt with `queue empty`. -/
def queuePopNonblock : World → ThreadId → World := deliverPending false

def emittedCheckpoint : World :=
  if (w.threads t).bodyEntered then w.deliverPending true t
  else w.set t { w.threads t with bodyEntered := true }

/-- The thread's own takes reach the counter. -/
def settle : World := { w with pendingGlobal := w.pendingGlobal - w.subs, subs := 0 }

/-- A whole checkpoint that nothing comes between. -/
def checkpoint (deliver : World → ThreadId → World) (w : World) (t : ThreadId) : World :=
  if w.pendingGlobal = 0 then w else (deliver ((w.takeBit t .timer).takeBit t .gc) t).settle

def checkInts : World → ThreadId → World := checkpoint emittedCheckpoint

def blockingCheckpoint : World → ThreadId → World := checkpoint checkInterrupt

end World

inductive Action where
  | spawn
  | post (kind : InterruptKind)
  | postBit (bit : Bit)
  | takeBit (bit : Bit)
  /-- The delivery in `sleep`, `Thread.stop`, `join` and the pops that wait. -/
  | checkInterrupt
  | emittedCheckpoint
  | queuePopNonblock
  | rescue
  | finish
  | add
  | sub
  deriving DecidableEq

/-- One access. What a thread does in a checkpoint it may do at any time here, since the counter is
read long before. -/
def interruptStep (w : World) : ThreadId × Action → Option World
  | (t, .spawn) =>
    if t ∈ w.spawned then none
    else some { w.set t (.build false) with
      spawned := insert t w.spawned
      live := insert t w.live }
  | (t, .post kind) => if t ∈ w.spawned then some (w.post t kind) else none
  | (t, .postBit bit) => if t ∈ w.spawned then some (w.postBit t bit) else none
  | (t, .takeBit bit) => if t ∈ w.live then some (w.takeBit t bit) else none
  | (t, .checkInterrupt) => if t ∈ w.live then some (w.checkInterrupt t) else none
  | (t, .emittedCheckpoint) => if t ∈ w.live then some (w.emittedCheckpoint t) else none
  | (t, .queuePopNonblock) => if t ∈ w.live then some (w.queuePopNonblock t) else none
  | (t, .rescue) =>
    if t ∈ w.live then some (w.set t { w.threads t with unwinding := false }) else none
  | (t, .finish) => if t ∈ w.live then some { w with live := w.live.erase t } else none
  | (_, .add) =>
    if w.adds = 0 then none
    else some { w with adds := w.adds - 1, pendingGlobal := w.pendingGlobal + 1 }
  | (_, .sub) =>
    if w.subs = 0 then none
    else some { w with subs := w.subs - 1, pendingGlobal := w.pendingGlobal - 1 }

/-- The threads, where every action meets a condition. -/
def interrupts (meets : World → ThreadId × Action → Prop) [∀ w a, Decidable (meets w a)] :
    StepSystem World (ThreadId × Action) where
  start := .start
  step w a := if meets w a then interruptStep w a else none

variable {w w' w'' : World} {t : ThreadId} {a : Action}

@[simp] theorem World.set_adds (r : RThread) : (w.set t r).adds = w.adds := rfl

@[simp] theorem World.set_subs (r : RThread) : (w.set t r).subs = w.subs := rfl

@[simp] theorem World.set_threads (r : RThread) : (w.set t r).threads = update w.threads t r := rfl

theorem RThread.weight_update_ints (r : RThread) (bit : Bit) (b : Bool) :
    { r with ints := update r.ints bit b }.weight + (r.ints bit).toNat = r.weight + b.toNat := by
  cases bit <;> simp [RThread.weight] <;> omega

/-- A thread changes, and the counter follows or is still to follow. -/
structure Moves (w : World) (t : ThreadId) (w' : World) : Prop where
  others : ∀ t' ≠ t, w'.threads t' = w.threads t'
  spawned : w'.spawned = w.spawned
  live : w'.live = w.live
  eventual : w'.eventual + (w.threads t).weight = w.eventual + (w'.threads t).weight

namespace Moves

theorem refl : Moves w t w := ⟨fun _ _ => rfl, rfl, rfl, rfl⟩

theorem trans (first : Moves w t w') (second : Moves w' t w'') : Moves w t w'' where
  others t' other := (second.others t' other).trans (first.others t' other)
  spawned := second.spawned.trans first.spawned
  live := second.live.trans first.live
  eventual := by
    have now := first.eventual
    have later := second.eventual
    omega

theorem set {r : RThread} {adds subs : Nat}
    (balance : adds + w.subs + (w.threads t).weight = w.adds + subs + r.weight) :
    Moves w t { w.set t r with adds := adds, subs := subs } where
  others t' other := update_of_ne other ..
  spawned := rfl
  live := rfl
  eventual := by
    simp only [World.eventual, World.set, update_self]
    omega

theorem post (kind : InterruptKind) : Moves w t (w.post t kind) := by
  refine set ?_
  cases slot : (w.threads t).interrupt with
  | none =>
    simp [RThread.weight, slot]
    omega
  | some old => simp [RThread.weight, slot]

theorem postBit (bit : Bit) : Moves w t (w.postBit t bit) := by
  refine set ?_
  have weight := (w.threads t).weight_update_ints bit true
  cases is : (w.threads t).ints bit <;> simp [is] at weight ⊢ <;> omega

theorem takeBit (bit : Bit) : Moves w t (w.takeBit t bit) := by
  refine set ?_
  have weight := (w.threads t).weight_update_ints bit false
  cases is : (w.threads t).ints bit <;> simp [is] at weight ⊢ <;> omega

theorem deliverPending (passed : Bool) : Moves w t (w.deliverPending passed t) := by
  cases slot : (w.threads t).interrupt with
  | none =>
    rw [World.deliverPending, slot]
    exact refl
  | some kind =>
    rw [World.deliverPending, slot]
    refine set ?_
    simp [RThread.weight, slot]
    omega

theorem emittedCheckpoint : Moves w t (w.emittedCheckpoint t) := by
  unfold World.emittedCheckpoint
  split
  · exact deliverPending true
  · exact set rfl

theorem settle : Moves w t w.settle :=
  ⟨fun _ _ => rfl, rfl, rfl, by simp [World.eventual, World.settle]; omega⟩

end Moves

/-- Nothing is posted to a thread that has ended, and no thread ends with something pending. -/
def Clean (w : World) : ThreadId × Action → Prop
  | (t, .post _) => t ∈ w.live
  | (t, .postBit _) => t ∈ w.live
  | (t, .finish) => (w.threads t).weight = 0
  | _ => True

instance : ∀ w a, Decidable (Clean w a)
  | w, (t, a) => by cases a <;> unfold Clean <;> infer_instance

theorem step_cases (stepped : interruptStep w (t, a) = some w') (within : w.live ⊆ w.spawned) :
    (t ∈ w.spawned ∧ (Clean w (t, a) → t ∈ w.live) ∧ Moves w t w') ∨
    (t ∉ w.spawned ∧ w' = { w.set t (.build false) with
      spawned := insert t w.spawned
      live := insert t w.live }) ∨
    (a = .finish ∧ w' = { w with live := w.live.erase t }) ∨
    -- an access to the counter
    (w'.threads = w.threads ∧ w'.spawned = w.spawned ∧ w'.live = w.live ∧
      w'.eventual = w.eventual) := by
  cases a with
  | spawn =>
    simp only [interruptStep, Option.ite_none_left_eq_some, Option.some.injEq] at stepped
    exact .inr (.inl ⟨stepped.1, stepped.2.symm⟩)
  | finish =>
    simp only [interruptStep, Option.ite_some_none_eq_some] at stepped
    exact .inr (.inr (.inl ⟨rfl, stepped.2.symm⟩))
  | add | sub =>
    simp only [interruptStep, Option.ite_none_left_eq_some, Option.some.injEq] at stepped
    obtain ⟨some, rfl⟩ := stepped
    refine .inr (.inr (.inr ⟨rfl, rfl, rfl, ?_⟩))
    simp only [World.eventual]
    omega
  | post kind =>
    simp only [interruptStep, Option.ite_some_none_eq_some] at stepped
    obtain ⟨known, rfl⟩ := stepped
    exact .inl ⟨known, id, .post kind⟩
  | postBit bit =>
    simp only [interruptStep, Option.ite_some_none_eq_some] at stepped
    obtain ⟨known, rfl⟩ := stepped
    exact .inl ⟨known, id, .postBit bit⟩
  | takeBit | checkInterrupt | emittedCheckpoint | queuePopNonblock | rescue =>
    simp only [interruptStep, Option.ite_some_none_eq_some] at stepped
    obtain ⟨live, rfl⟩ := stepped
    refine .inl ⟨within live, fun _ => live, ?_⟩
    first
      | exact .takeBit _
      | exact .deliverPending _
      | exact .emittedCheckpoint
      | exact .set rfl

/-- The counter is right about all threads that were ever spawned. -/
structure Counted (w : World) : Prop where
  live : w.live ⊆ w.spawned
  exact : w.eventual = ∑ t ∈ w.spawned, (w.threads t).weight

namespace Counted

theorem start : Counted .start := ⟨Subset.refl _, rfl⟩

theorem moves (counted : Counted w) (known : t ∈ w.spawned) (moved : Moves w t w') : Counted w' where
  live := by
    rw [moved.live, moved.spawned]
    exact counted.live
  exact := by
    have others : ∑ t' ∈ w.spawned.erase t, (w'.threads t').weight =
        ∑ t' ∈ w.spawned.erase t, (w.threads t').weight :=
      sum_congr rfl fun t' mem => by rw [moved.others t' (ne_of_mem_erase mem)]
    have balance := moved.eventual
    rw [counted.exact, ← add_sum_erase _ _ known] at balance
    rw [moved.spawned, ← add_sum_erase _ _ known, others]
    omega

theorem step (counted : Counted w) (stepped : interruptStep w (t, a) = some w') : Counted w' := by
  rcases step_cases stepped counted.live with ⟨known, _, moved⟩ | ⟨fresh, rfl⟩ | ⟨_, rfl⟩ |
    ⟨threads, spawned, live, eventual⟩
  · exact counted.moves known moved
  · refine ⟨insert_subset_insert t counted.live, ?_⟩
    have others : ∑ t' ∈ w.spawned, ((w.set t (.build false)).threads t').weight =
        ∑ t' ∈ w.spawned, (w.threads t').weight :=
      sum_congr rfl fun t' mem => by
        rw [World.set_threads, update_of_ne (ne_of_mem_of_not_mem mem fresh)]
    rw [sum_insert fresh, others, World.set_threads, update_self]
    exact counted.exact.trans (congrArg _ (Nat.zero_add _).symm)
  · exact ⟨(erase_subset _ _).trans counted.live, counted.exact⟩
  · constructor
    · rw [live, spawned]
      exact counted.live
    · rw [eventual, spawned, threads]
      exact counted.exact

theorem weight_le (counted : Counted w) (live : t ∈ w.live) :
    ((w.threads t).weight : Int) ≤ w.eventual := by
  rw [counted.exact]
  exact_mod_cast single_le_sum (f := fun t => (w.threads t).weight) (fun _ _ => Nat.zero_le _)
    (counted.live live)

end Counted

structure Exact (w : World) : Prop extends Counted w where
  ended : ∀ t ∉ w.live, (w.threads t).weight = 0

namespace Exact

theorem moves (exact : Exact w) (live : t ∈ w.live) (moved : Moves w t w') : Exact w' where
  toCounted := exact.toCounted.moves (exact.live live) moved
  ended t' gone := by
    rw [moved.live] at gone
    rw [moved.others t' (ne_of_mem_of_not_mem live gone).symm]
    exact exact.ended t' gone

theorem step (exact : Exact w) (clean : Clean w (t, a))
    (stepped : interruptStep w (t, a) = some w') : Exact w' := by
  refine { toCounted := exact.toCounted.step stepped, ended := ?_ }
  rcases step_cases stepped exact.live with ⟨_, live, moved⟩ | ⟨_, rfl⟩ | ⟨rfl, rfl⟩ |
    ⟨threads, _, live, _⟩
  · exact (exact.moves (live clean) moved).ended
  · intro t' gone
    simp only [mem_insert, not_or] at gone
    rw [World.set_threads, update_of_ne gone.1]
    exact exact.ended t' gone.2
  · intro t' gone
    by_cases same : t' = t
    · rw [same]
      exact clean
    · exact exact.ended t' fun live => gone (mem_erase.mpr ⟨same, live⟩)
  · rw [threads, live]
    exact exact.ended

theorem counter (exact : Exact w) : w.eventual = ∑ t ∈ w.live, (w.threads t).weight := by
  rw [exact.exact, sum_subset exact.live fun t _ gone => exact.ended t gone]

end Exact

structure Quiet (w : World) : Prop extends Exact w where
  adds : w.adds = 0
  subs : w.subs = 0

theorem Quiet.eventual (quiet : Quiet w) : w.eventual = w.pendingGlobal := by
  simp [World.eventual, quiet.adds, quiet.subs]

theorem World.checkInts_entered (entered : (w.threads t).bodyEntered) :
    w.checkInts t = w.blockingCheckpoint t := by
  simp [checkInts, blockingCheckpoint, checkpoint, emittedCheckpoint, checkInterrupt, takeBit, entered]

theorem Quiet.blockingCheckpoint (quiet : Quiet w) (live : t ∈ w.live) :
    Quiet (w.blockingCheckpoint t) ∧ Moves w t (w.blockingCheckpoint t) ∧
      ((w.blockingCheckpoint t).threads t).weight = 0 ∧
      ((w.blockingCheckpoint t).threads t).bodyEntered = (w.threads t).bodyEntered := by
  unfold World.blockingCheckpoint World.checkpoint
  split
  · rename_i zero
    have least := quiet.weight_le live
    rw [quiet.eventual, zero] at least
    exact ⟨quiet, .refl, by omega, rfl⟩
  · have moved := (((Moves.takeBit (w := w) (t := t) .timer).trans (.takeBit .gc)).trans
      (.deliverPending true)).trans .settle
    refine ⟨⟨quiet.toExact.moves live moved, ?_, rfl⟩, moved, ?_⟩
    all_goals
      cases slot : (w.threads t).interrupt <;>
        simp [World.checkInterrupt, World.deliverPending, World.takeBit, World.settle,
          RThread.weight, slot, quiet.adds]

/-- A checkpoint of a thread, which blocks or is one that the compiler emits. -/
def World.serve (w : World) (c : ThreadId × Bool) : World :=
  if c.2 then w.blockingCheckpoint c.1 else w.checkInts c.1

theorem Quiet.round {round : List (ThreadId × Bool)} (quiet : Quiet w)
    (served : ∀ c ∈ round, c.1 ∈ w.live ∧ (c.2 = false → (w.threads c.1).bodyEntered))
    (covers : ∀ t ∈ w.live, (w.threads t).weight = 0 ∨ ∃ c ∈ round, c.1 = t) :
    (round.foldl World.serve w).pendingGlobal = 0 := by
  induction round generalizing w with
  | nil =>
    have empty : ∀ t ∈ w.live, (w.threads t).weight = 0 := by simpa using covers
    change w.pendingGlobal = 0
    rw [← quiet.eventual, quiet.counter, sum_eq_zero empty]
    rfl
  | cons c round ih =>
    obtain ⟨live, entered⟩ := served c (List.mem_cons_self ..)
    have once : w.serve c = w.blockingCheckpoint c.1 := by
      unfold World.serve
      split
      · rfl
      · rename_i emitted
        exact World.checkInts_entered (entered (eq_false_of_ne_true emitted))
    obtain ⟨after, moved, empty, kept⟩ := quiet.blockingCheckpoint live
    rw [← once] at after moved empty kept
    refine ih after ?_ ?_
    · intro d mem
      obtain ⟨live', entered'⟩ := served d (List.mem_cons_of_mem _ mem)
      rw [moved.live]
      refine ⟨live', fun emitted => ?_⟩
      by_cases same : d.1 = c.1
      · rw [same, kept, ← same]
        exact entered' emitted
      · rw [moved.others _ same]
        exact entered' emitted
    · intro t' live'
      rw [moved.live] at live'
      by_cases same : t' = c.1
      · exact .inl (same ▸ empty)
      · rw [moved.others _ same]
        simpa [Ne.symm same] using covers t' live'

/-- In every state of a clean run the counter is the number of bits and slots of live threads that
are filled, up to posts and takes on their way; and where none is, it is zero again as soon as every
live thread has run a checkpoint, other than the first that the compiler emits in its body. -/
theorem pending_counter_exact (w : World) (reached : (interrupts Clean).Reach (fun _ => True) w) :
    w.pendingGlobal + w.adds = ∑ t ∈ w.live, (w.threads t).weight + w.subs ∧
    (w.adds = 0 → w.subs = 0 → ∀ round : List (ThreadId × Bool),
      (∀ c ∈ round, c.1 ∈ w.live ∧ (c.2 = false → (w.threads c.1).bodyEntered)) →
      (∀ t ∈ w.live, ∃ c ∈ round, c.1 = t) → (round.foldl World.serve w).pendingGlobal = 0) := by
  have exact : Exact w := by
    refine reached.keeps ?_ ⟨.start, fun _ _ => rfl⟩
    intro s a s' exact stepped _
    simp only [interrupts, Option.ite_none_right_eq_some] at stepped
    exact exact.step stepped.1 stepped.2
  constructor
  · have counter := exact.counter
    unfold World.eventual at counter
    omega
  · intro adds subs round served covers
    exact Quiet.round ⟨exact, adds, subs⟩ served fun t live => .inr (covers t live)

theorem pending_counter_exact_killed : ∃ w, (interrupts Clean).Reach (fun _ => True) w ∧
    w.pendingGlobal = 1 ∧ ([(1, true), (0, false)].foldl World.serve w).pendingGlobal = 0 := by
  have reached := @StepSystem.path_run _ _ (interrupts Clean)
    [(1, .spawn), (1, .post .kill), (1, .add)] .start _ rfl
  exact ⟨_, reached, rfl, (pending_counter_exact _ reached).2 rfl rfl _ (by decide) (by decide)⟩

/-- The timer has set the bit of a thread that ends before its next checkpoint. -/
theorem ended_thread_counted : ∃ w, (interrupts fun _ _ => True).Reach (fun _ => True) w ∧
    w.pendingGlobal = 1 ∧ w.adds = 0 ∧ w.subs = 0 ∧ w.live = {0} ∧ (w.threads 0).weight = 0 ∧
    (w.serve (0, false)).pendingGlobal = 1 :=
  ⟨_, @StepSystem.path_run _ _ _ [(1, .spawn), (1, .postBit .timer), (1, .add), (1, .finish)] _ _ rfl,
    rfl, rfl, rfl, rfl, rfl, rfl⟩

/-- The slot of a thread is free whenever something is posted to it and whenever it pops a queue
without waiting, and nothing is caught after a kill was raised. -/
def Orderly (w : World) : ThreadId × Action → Prop
  | (t, .post _) => (w.threads t).interrupt = none
  | (t, .queuePopNonblock) => (w.threads t).interrupt = none
  | (t, .rescue) => .kill ∉ (w.threads t).raised
  | _ => True

instance : ∀ w a, Decidable (Orderly w a)
  | w, (t, a) => by cases a <;> unfold Orderly <;> infer_instance

/-- Nothing that was posted to a thread is lost, and a kill is still on its way. -/
structure Kept (r : RThread) : Prop where
  posted : r.posted = r.raised ++ r.interrupt.toList
  kill : .kill ∈ r.raised → r.unwinding = true

theorem Kept.deliverPending (kept : ∀ t, Kept (w.threads t)) (t' : ThreadId) :
    Kept ((w.deliverPending true t).threads t') := by
  cases slot : (w.threads t).interrupt with
  | none =>
    rw [World.deliverPending, slot]
    exact kept t'
  | some kind =>
    rw [World.deliverPending, slot]
    refine (forall_update_iff _ fun _ => Kept).mpr ⟨⟨?_, fun _ => rfl⟩, fun t _ => kept t⟩ t'
    simpa [slot] using (kept t).posted

structure Ordered (w : World) : Prop extends Counted w where
  kept : ∀ t, Kept (w.threads t)

theorem Ordered.step (ordered : Ordered w) (orderly : Orderly w (t, a))
    (stepped : interruptStep w (t, a) = some w') : Ordered w' := by
  refine { toCounted := ordered.toCounted.step stepped, kept := ?_ }
  have kept := ordered.kept
  -- an action changes no thread but its own
  have set : ∀ r, Kept r → ∀ t', Kept (update w.threads t r t') := fun r here =>
    (forall_update_iff _ fun _ => Kept).mpr ⟨here, fun t _ => kept t⟩
  cases a <;> simp only [interruptStep, Option.ite_none_right_eq_some,
    Option.ite_none_left_eq_some, Option.some.injEq] at stepped <;> obtain ⟨_, rfl⟩ := stepped
  case spawn => exact set _ ⟨rfl, by simp [RThread.build]⟩
  case post kind =>
    have posted := (kept t).posted
    rw [show (w.threads t).interrupt = none from orderly] at posted
    exact set _ ⟨by simpa using posted, (kept t).kill⟩
  case postBit bit | takeBit bit => exact set _ ⟨(kept t).posted, (kept t).kill⟩
  case checkInterrupt => exact Kept.deliverPending kept
  case emittedCheckpoint =>
    unfold World.emittedCheckpoint
    split
    · exact Kept.deliverPending kept
    · exact set _ ⟨(kept t).posted, (kept t).kill⟩
  case queuePopNonblock =>
    rw [World.queuePopNonblock, World.deliverPending, show (w.threads t).interrupt = none from orderly]
    exact kept
  case rescue => exact set _ ⟨(kept t).posted, fun kill => absurd kill orderly⟩
  case finish | add | sub => exact kept

/-- In every state of an orderly run, what was posted to a thread is what has been raised in it and
then what is in its slot, a thread in which a kill was raised is on its way out, and the next
checkpoint of a live thread raises what is in its slot. -/
theorem interrupts_raised (w : World) (reached : (interrupts Orderly).Reach (fun _ => True) w)
    (t : ThreadId) :
    (w.threads t).posted = (w.threads t).raised ++ (w.threads t).interrupt.toList ∧
    (.kill ∈ (w.threads t).raised → (w.threads t).unwinding = true) ∧
    (t ∈ w.live → w.adds = 0 → ∀ kind, (w.threads t).interrupt = some kind →
      ((w.checkInterrupt t).threads t).raised = (w.threads t).raised ++ [kind] ∧
      ((w.blockingCheckpoint t).threads t).raised = (w.threads t).raised ++ [kind] ∧
      ((w.threads t).bodyEntered →
        ((w.checkInts t).threads t).raised = (w.threads t).raised ++ [kind])) := by
  have ordered : Ordered w := by
    refine reached.keeps ?_ ⟨.start, fun _ => ⟨rfl, nofun⟩⟩
    intro s a s' ordered stepped _
    simp only [interrupts, Option.ite_none_right_eq_some] at stepped
    exact ordered.step stepped.1 stepped.2
  have kept := ordered.kept t
  refine ⟨kept.posted, kept.kill, fun live adds kind slot => ?_⟩
  have pending : w.pendingGlobal ≠ 0 := by
    have least := ordered.weight_le live
    simp only [RThread.weight, slot, World.eventual, adds, Option.toList_some,
      List.length_singleton] at least
    omega
  have blocking : ((w.blockingCheckpoint t).threads t).raised = (w.threads t).raised ++ [kind] := by
    simp [World.blockingCheckpoint, World.checkpoint, World.checkInterrupt, World.deliverPending,
      World.takeBit, World.settle, pending, slot]
  refine ⟨?_, blocking, fun entered => ?_⟩
  · simp [World.checkInterrupt, World.deliverPending, slot]
  · rw [World.checkInts_entered entered]
    exact blocking

theorem interrupts_raised_killed : ∃ w, (interrupts Orderly).Reach (fun _ => True) w ∧
    (w.threads 1).posted = [.raise 7, .kill] ∧ (w.threads 1).raised = [.raise 7] ∧
    ((w.checkInts 1).threads 1).raised = [.raise 7, .kill] := by
  have reached := @StepSystem.path_run _ _ (interrupts Orderly)
    [(1, .spawn), (1, .emittedCheckpoint), (1, .post (.raise 7)), (1, .add), (1, .checkInterrupt),
      (1, .rescue), (1, .post .kill), (1, .add)] .start _ rfl
  exact ⟨_, reached, rfl, rfl,
    ((interrupts_raised _ reached 1).2.2 (by decide) rfl .kill rfl).2.2 rfl⟩

/-- A kill whose own addition is done still has to wait while the take of a bit is counted before
its post. -/
example : ∃ w, (interrupts Orderly).Reach (fun _ => True) w ∧ (w.threads 1).interrupt = some .kill ∧
    w.pendingGlobal = 0 ∧ w.adds = 1 :=
  ⟨_, @StepSystem.path_run _ _ _ [(1, .spawn), (2, .spawn), (1, .post .kill), (1, .add),
    (2, .postBit .timer), (2, .takeBit .timer), (2, .sub)] _ _ rfl, rfl, rfl, rfl⟩

/-- A thread that is killed pops an empty queue without waiting, and goes on once it has caught the
error of the empty queue. -/
theorem kill_lost_in_pop : ∃ w, (interrupts fun _ _ => True).Reach (fun _ => True) w ∧
    (w.threads 1).posted = [.kill] ∧ (w.threads 1).interrupt = none ∧ (w.threads 1).raised = [] ∧
    1 ∈ w.live ∧ (w.threads 1).unwinding = false :=
  ⟨_, @StepSystem.path_run _ _ _ [(1, .spawn), (1, .post .kill), (1, .add), (1, .queuePopNonblock),
    (1, .sub), (1, .rescue)] _ _ rfl, rfl, rfl, rfl, by decide, rfl⟩

end Zeo.Interrupts
