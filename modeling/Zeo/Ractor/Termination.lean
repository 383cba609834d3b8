import Zeo.Ractor.Lifecycle

/-!
# Tokens of a ractor that ends

While no other thread of the ractor is in a receive or a select from the moment the terminated
status is stored, the status stays, and every registration that is not undone is sent one token: by
`finish` if it was in the list when the monitors were taken, and by its own call if that saw the
status. A thread of the ractor that wakes up later stores the running status over it, and whoever
registers after that waits for a token that nobody sends.
-/

namespace Zeo.Ractor

open Zeo.Lib Zeo.Value List Option Function
open Function (update update_of_ne update_self)

/-- `finish` has stored the terminated status. -/
def Exit.flag : Exit → Bool
  | .fresh | .body | .stored => false
  | .flagged | .cleared | .sending _ | .done => true

/-- `finish` has taken the monitors. -/
def Exit.took : Exit → Bool
  | .sending _ | .done => true
  | _ => false

/-- The registrations `finish` has still to feed. -/
def Exit.pending : Exit → List Registration
  | .sending rest => rest
  | _ => []

variable {exit : Exit}

theorem flag_of_took (took : exit.took = true) : exit.flag = true := by
  cases exit <;> first | rfl | cases took

def Loop.stores : Loop → Bool
  | .announce _ | .awake _ => true
  | _ => false

/-- A thread of the ractor stores no terminated status, and stores one only where it goes to wait or
comes from it. -/
theorem crewStep_status {status status' : Status} {crew crew' : Crew} {t : Nat} {a : CrewAction}
    (stepped : crewStep status crew t a = some (status', crew')) :
    status' = status ∨ status' ≠ .terminated ∧ (crew.threads t).stores = true := by
  cases a <;> grind [crewStep, Crew.onTable, Loop.stores]

section Actions

variable {s s' : Life}

theorem lifeStep_crew {t : Nat} {a : CrewAction} (stepped : lifeStep s (.crew t a) = some s') :
    ∃ status crew, crewStep s.status s.crew t a = some (status, crew) ∧
      s' = { s with status := status, crew := crew } := by
  simp only [lifeStep, ite_none_right_eq_some, map_eq_some_iff] at stepped
  obtain ⟨_, ⟨status, crew⟩, crewed, rfl⟩ := stepped
  exact ⟨status, crew, crewed, rfl⟩

variable {c : Nat} {a : DeskAction}

theorem lifeStep_desk (stepped : lifeStep s (.desk c a) = some s') :
    ∃ desk, deskStep s.status s.outcome s.desk c a = some desk ∧ s' = { s with desk := desk } := by
  simp only [lifeStep, map_eq_some_iff] at stepped
  obtain ⟨desk, desked, rfl⟩ := stepped
  exact ⟨desk, desked, rfl⟩

theorem lifeStep_mail {port : Nat} {v : RubyValue} (stepped : lifeStep s (.mail port v) = some s') :
    ∃ ports, s' = { s with crew := { s.crew with ports := ports } } := by
  simp only [lifeStep, Crew.onTable, map_eq_some_iff, ite_none_right_eq_some, some.injEq] at stepped
  obtain ⟨crew, ⟨_, rfl⟩, rfl⟩ := stepped
  exact ⟨_, rfl⟩

end Actions

/-- The registrations that wait, are about to be fed or have been fed. -/
def ledger (exit : Exit) (desk : Desk) : List Registration :=
  desk.monitors ++ exit.pending ++ desk.delivered

/-- What an action of a thread of another ractor does to the registrations. -/
inductive Entered (desk desk' : Desk) : Prop
  | same : desk'.monitors = desk.monitors → desk'.delivered = desk.delivered →
    desk'.registered = desk.registered → desk'.unregistered = desk.unregistered →
    desk'.nextNumber = desk.nextNumber → Entered desk desk'
  | pushed (port : MonitorPort) :
    desk'.monitors = desk.monitors ++ [⟨desk.nextNumber, port⟩] → desk'.delivered = desk.delivered →
    desk'.registered = desk.registered ++ [⟨desk.nextNumber, port⟩] →
    desk'.unregistered = desk.unregistered → desk'.nextNumber = desk.nextNumber + 1 →
    Entered desk desk'
  | sent (port : MonitorPort) : desk'.monitors = desk.monitors →
    desk'.delivered = desk.delivered ++ [⟨desk.nextNumber, port⟩] →
    desk'.registered = desk.registered ++ [⟨desk.nextNumber, port⟩] →
    desk'.unregistered = desk.unregistered → desk'.nextNumber = desk.nextNumber + 1 →
    Entered desk desk'
  | dropped (port : MonitorPort) :
    desk'.monitors = (desk.monitors.filter fun r => r.port ≠ port) →
    desk'.delivered = desk.delivered → desk'.registered = desk.registered →
    desk'.unregistered = desk.unregistered ++ (desk.registered.filter fun r => r.port = port) →
    desk'.nextNumber = desk.nextNumber → Entered desk desk'

inductive Turn (status : Status) (desk : Desk) (c : Nat) : Desk → Prop
  | monitors (number : Nat) : desk.clients c = .out →
    Turn status desk c (desk.goto c (.enter (.user number)))
  | joins : desk.clients c = .out → Turn status desk c
      { desk.goto c (.enter (.join desk.nextJoin)) with nextJoin := desk.nextJoin + 1 }
  | locks (port : MonitorPort) : desk.clients c = .enter port → desk.list = none →
    Turn status desk c { desk.goto c (.load port) with list := some c }
  | sees (port : MonitorPort) : desk.clients c = .load port → status = .terminated →
    Turn status desk c { desk.goto c (.token port) with list := none }
  | misses (port : MonitorPort) : desk.clients c = .load port → status ≠ .terminated →
    Turn status desk c (desk.goto c (.push port))
  | pushes (port : MonitorPort) : desk.clients c = .push port → Turn status desk c
      { (desk.register port).goto c (returned port) with
        monitors := desk.monitors ++ [⟨desk.nextNumber, port⟩]
        list := none }
  | learns (port : MonitorPort) (aborted : Bool) : desk.clients c = .token port →
    Turn status desk c (desk.goto c (.send port aborted))
  | sends (port : MonitorPort) (aborted : Bool) : desk.clients c = .send port aborted →
    Turn status desk c
      (((desk.register port).deliver ⟨desk.nextNumber, port⟩ aborted).goto c (returned port))
  | receives (number : Nat) (token : Bool) (rest : List Bool) : desk.clients c = .await number →
    desk.inbox (.join number) = token :: rest → Turn status desk c
      { desk.goto c (.leave number) with
        inbox := update desk.inbox (.join number) rest }
  | leaves (number : Nat) : desk.clients c = .leave number → desk.list = none →
    Turn status desk c ((desk.drop (.join number)).goto c .out)
  | unmonitors (number : Nat) : desk.clients c = .out → desk.list = none →
    Turn status desk c (desk.drop (.user number))
  | drains (number : Nat) : Turn status desk c
      { desk with
        inbox := update desk.inbox (.user number) (desk.inbox (.user number)).tail }

open Turn

variable {desk desk' : Desk} {status : Status}

theorem deskStep_turn {outcome : Option Bool}
    (stepped : deskStep status outcome desk c a = some desk') :
    Turn status desk c desk' := by
  cases a with
  | monitor number => grind [deskStep, monitors]
  | join => grind [deskStep, joins]
  | lock => grind [deskStep, locks]
  | load => grind [deskStep, sees, misses]
  | push => grind [deskStep, pushes]
  | token => grind [deskStep, learns]
  | send => grind [deskStep, sends]
  | receive => grind [deskStep, receives]
  | leave => grind [deskStep, leaves]
  | unmonitor number => grind [deskStep, unmonitors]
  | drain number => grind [deskStep, drains]

theorem Turn.entered (turn : Turn status desk c desk') : Entered desk desk' := by
  cases turn with
  | pushes port => exact .pushed port rfl rfl rfl rfl rfl
  | sends port aborted => exact .sent port rfl rfl rfl rfl rfl
  | leaves number => exact .dropped (.join number) rfl rfl rfl rfl rfl
  | unmonitors number => exact .dropped (.user number) rfl rfl rfl rfl rfl
  | _ => exact .same rfl rfl rfl rfl rfl

structure Ordered (exit : Exit) (desk : Desk) : Prop where
  older : ∀ r ∈ desk.registered, r.number < desk.nextNumber
  known : ∀ r ∈ ledger exit desk, r ∈ desk.registered
  once : (ledger exit desk).Nodup
  kept : ∀ r ∈ desk.registered, r ∉ desk.unregistered → r ∈ ledger exit desk
  undone : ∀ r ∈ desk.unregistered, r ∈ desk.registered

variable {port : MonitorPort}

section Ordered

variable {exit exit' : Exit} {desk desk' : Desk}

section

variable (ordered : Ordered exit desk)

include ordered

theorem Ordered.fresh (port : MonitorPort) :
    ⟨desk.nextNumber, port⟩ ∉ desk.registered :=
  fun mem => Nat.lt_irrefl _ (ordered.older _ mem)

theorem Ordered.enter
    (entered : (ledger exit desk').Perm (⟨desk.nextNumber, port⟩ :: ledger exit desk))
    (registered : desk'.registered = desk.registered ++ [⟨desk.nextNumber, port⟩])
    (unregistered : desk'.unregistered = desk.unregistered)
    (next : desk'.nextNumber = desk.nextNumber + 1) : Ordered exit desk' where
  older r mem := by
    rw [registered] at mem
    rw [next]
    rcases mem_append.mp mem with old | new
    · exact Nat.lt_succ_of_lt (ordered.older r old)
    · rw [mem_singleton.mp new]
      exact Nat.lt_succ_self _
  known r mem := by
    rw [registered]
    rcases mem_cons.mp (entered.mem_iff.mp mem) with rfl | old
    · exact mem_append_right _ (mem_singleton_self _)
    · exact mem_append_left _ (ordered.known r old)
  once := by
    rw [entered.nodup_iff, nodup_cons]
    exact ⟨fun mem => ordered.fresh port (ordered.known _ mem), ordered.once⟩
  kept r mem still := by
    rw [registered] at mem
    rw [unregistered] at still
    rw [entered.mem_iff, mem_cons]
    rcases mem_append.mp mem with old | new
    · exact .inr (ordered.kept r old still)
    · exact .inl (mem_singleton.mp new)
  undone r mem := by
    rw [unregistered] at mem
    rw [registered]
    exact mem_append_left _ (ordered.undone r mem)

theorem Ordered.moved (same : (ledger exit' desk').Perm (ledger exit desk))
    (registered : desk'.registered = desk.registered)
    (unregistered : desk'.unregistered = desk.unregistered)
    (next : desk'.nextNumber = desk.nextNumber) : Ordered exit' desk' where
  older r mem := by
    rw [registered] at mem
    rw [next]
    exact ordered.older r mem
  known r mem := by
    rw [registered]
    exact ordered.known r (same.mem_iff.mp mem)
  once := same.nodup_iff.mpr ordered.once
  kept r mem still := by
    rw [registered] at mem
    rw [unregistered] at still
    rw [same.mem_iff]
    exact ordered.kept r mem still
  undone r mem := by
    rw [unregistered] at mem
    rw [registered]
    exact ordered.undone r mem

theorem Ordered.drop
    (monitors : desk'.monitors = desk.monitors.filter fun r => r.port ≠ port)
    (delivered : desk'.delivered = desk.delivered) (registered : desk'.registered = desk.registered)
    (unregistered : desk'.unregistered =
      desk.unregistered ++ desk.registered.filter fun r => r.port = port)
    (next : desk'.nextNumber = desk.nextNumber) : Ordered exit desk' := by
  have fewer : (ledger exit desk').Sublist (ledger exit desk) := by
    rw [ledger, monitors, delivered]
    exact (filter_sublist.append_right _).append_right _
  constructor
  · intro r mem
    rw [registered] at mem
    rw [next]
    exact ordered.older r mem
  · intro r mem
    rw [registered]
    exact ordered.known r (fewer.subset mem)
  · exact fewer.nodup ordered.once
  · intro r mem still
    rw [registered] at mem
    rw [unregistered, mem_append, not_or] at still
    have there := ordered.kept r mem still.1
    have other : r.port ≠ port := by
      intro same
      apply still.2
      rw [mem_filter]
      exact ⟨mem, decide_eq_true same⟩
    rw [ledger, monitors, delivered]
    simp only [ledger] at there ⊢
    simpa [other] using there
  · intro r mem
    rw [unregistered] at mem
    rw [registered]
    rcases mem_append.mp mem with old | new
    · exact ordered.undone r old
    · exact (mem_filter.mp new).1

/-- An action of a thread of another ractor keeps the registrations in order. -/
theorem Ordered.entered (entered : Entered desk desk') :
    Ordered exit desk' := by
  cases entered with
  | same monitors delivered registered unregistered next =>
    apply ordered.moved _ registered unregistered next
    rw [ledger, ledger, monitors, delivered]
  | pushed port monitors delivered registered unregistered next =>
    apply ordered.enter _ registered unregistered next
    rw [ledger, ledger, monitors, delivered, append_assoc, append_assoc, append_assoc]
    exact perm_middle
  | sent port monitors delivered registered unregistered next =>
    apply ordered.enter _ registered unregistered next
    rw [ledger, monitors, delivered, ← append_assoc]
    exact perm_append_singleton _ _
  | dropped port monitors delivered registered unregistered next =>
    exact ordered.drop monitors delivered registered unregistered next

end

end Ordered

/-- A thread in this place holds the list of monitors. -/
def Call.holds : Call → Bool
  | .load _ | .push _ => true
  | _ => false

/-- The list is held by the thread that stands in its region. -/
def Guarded (desk : Desk) : Prop := ∀ c, desk.list = some c ↔ (desk.clients c).holds = true

/-- Nothing enters the list once it has been taken. -/
structure Closed (exit : Exit) (desk : Desk) : Prop where
  /-- Nobody has loaded an older status. -/
  pushing : ∀ c port, desk.clients c = .push port → exit.took = false
  empty : exit.took = true → desk.monitors = []

theorem holds_returned (port : MonitorPort) : (returned port).holds = false := by
  cases port <;> rfl

section Desk

variable {status : Status} {outcome : Option Bool} {desk desk' : Desk} {c : Nat} {a : DeskAction}

theorem Guarded.turn (guarded : Guarded desk) (turn : Turn status desk c desk') :
    Guarded desk' := by
  have here := guarded c
  intro c'
  have there := guarded c'
  have returns := holds_returned
  cases turn <;>
    simp only [Desk.goto, Desk.register, Desk.drop, Desk.deliver] <;>
    grind [Call.holds]

theorem Closed.turn (closed : Closed exit desk)
    (flagged : exit.flag = true → status = .terminated) (turn : Turn status desk c desk') :
    Closed exit desk' := by
  have took : exit.took = true → exit.flag = true := flag_of_took
  constructor
  · intro c' port
    have pushing := closed.pushing c'
    have returns := holds_returned
    cases turn <;>
      simp only [Desk.goto, Desk.register, Desk.drop, Desk.deliver] <;>
      grind [Call.holds]
  · intro taken
    have empty := closed.empty taken
    have pushing := closed.pushing c
    cases turn <;> simp only [Desk.goto, Desk.register, Desk.drop, Desk.deliver] <;> grind

end Desk

def MonitorPort.joining : MonitorPort → Option Nat
  | .user _ => none
  | .join number => some number

def Call.joining : Call → Option Nat
  | .out => none
  | .enter port | .load port | .push port | .token port | .send port _ => port.joining
  | .await number | .leave number => some number

theorem joining_returned (port : MonitorPort) : (returned port).joining = port.joining := by
  cases port <;> rfl

variable {number : Nat}

theorem await_of_returned
    (awaits : returned port = .await number) : port = .join number := by
  cases port with
  | user _ => cases awaits
  | join _ =>
    cases awaits
    rfl

/-- The joins do not meet, and none has lost its token. -/
structure Joins (desk : Desk) : Prop where
  newer : ∀ c number, (desk.clients c).joining = some number → number < desk.nextJoin
  alone : ∀ c c' number, (desk.clients c).joining = some number →
    (desk.clients c').joining = some number → c = c'
  /-- Who waits is registered, and the token is in the queue once it has been sent. -/
  awaited : ∀ c number, desk.clients c = .await number → ∃ r ∈ desk.registered,
    r.port = .join number ∧ r ∉ desk.unregistered ∧
      (r ∈ desk.delivered → desk.inbox (.join number) ≠ [])

section Joins

variable {status : Status} {desk desk' : Desk} {c : Nat}

theorem Turn.joining (turn : Turn status desk c desk') (c' : Nat) :
    (desk'.clients c').joining = (desk.clients c').joining ∨ (desk'.clients c').joining = none ∨
      c' = c ∧ (desk'.clients c').joining = some desk.nextJoin ∧
        desk'.nextJoin = desk.nextJoin + 1 := by
  cases turn <;>
    simp only [Desk.goto, Desk.register, Desk.drop, Desk.deliver] <;>
    grind [Call.joining, MonitorPort.joining, joining_returned]

theorem Turn.nextJoin_le (turn : Turn status desk c desk') : desk.nextJoin ≤ desk'.nextJoin := by
  cases turn with
  | joins => exact Nat.le_succ _
  | _ => exact Nat.le_refl _

variable {r : Registration}

theorem Desk.deliver_inbox_ne_nil (desk : Desk)
    (aborted : Bool) (queued : port ≠ r.port → desk.inbox port ≠ []) :
    (desk.deliver r aborted).inbox port ≠ [] := by
  change update desk.inbox r.port _ port ≠ []
  by_cases same : port = r.port
  · rw [same, update_self]
    exact append_ne_nil_of_right_ne_nil _ (cons_ne_nil _ _)
  · rw [update_of_ne same]
    exact queued same

theorem Desk.not_mem_drop (listed : r ∉ desk.unregistered)
    (other : r.port ≠ port) : r ∉ (desk.drop port).unregistered := by
  intro mem
  rcases mem_append.mp mem with old | new
  · exact listed old
  · exact other (of_decide_eq_true (mem_filter.mp new).2)

/-- A registration stays one, and a port leaves the list only by its own join. -/
theorem Turn.await_kept (turn : Turn status desk c desk')
    (ordered : Ordered exit desk) (alone : ∀ c c' number, (desk.clients c).joining = some number →
      (desk.clients c').joining = some number → c = c') {c' : Nat}
    (waits : desk.clients c' = .await number) (still : desk'.clients c' = .await number)
    (registered : r ∈ desk.registered) (port : r.port = .join number)
    (listed : r ∉ desk.unregistered)
    (queued : r ∈ desk.delivered → desk.inbox (.join number) ≠ []) :
    r ∈ desk'.registered ∧ r ∉ desk'.unregistered ∧
      (r ∈ desk'.delivered → desk'.inbox (.join number) ≠ []) := by
  have mine : (desk.clients c').joining = some number := by
    rw [waits]
    rfl
  cases turn with
  | pushes port' here => exact ⟨mem_append_left _ registered, listed, queued⟩
  | sends port' aborted here =>
    refine ⟨mem_append_left _ registered, listed, fun mem => ?_⟩
    have old : r ∈ desk.delivered := by
      rcases mem_append.mp mem with old | new
      · exact old
      · rw [mem_singleton.mp new] at registered
        exact absurd registered (ordered.fresh port')
    exact (desk.register port').deliver_inbox_ne_nil aborted fun _ => queued old
  | receives number' token rest here =>
    have other : MonitorPort.join number ≠ .join number' := by
      intro same
      cases same
      have own : c = c' := alone c c' number (by rw [here]; rfl) mine
      rw [own] at still
      simp [Desk.goto] at still
    refine ⟨registered, listed, fun mem => ?_⟩
    change update desk.inbox (.join number') rest (.join number) ≠ []
    rw [update_of_ne other]
    exact queued mem
  | leaves number' here =>
    have other : r.port ≠ .join number' := by
      intro same
      rw [port] at same
      cases same
      have own : c = c' := alone c c' number (by rw [here]; rfl) mine
      rw [own, waits] at here
      cases here
    exact ⟨registered, Desk.not_mem_drop listed other, queued⟩
  | unmonitors number' here =>
    have other : r.port ≠ .user number' := by
      rw [port]
      exact MonitorPort.noConfusion
    exact ⟨registered, Desk.not_mem_drop listed other, queued⟩
  | drains number' =>
    refine ⟨registered, listed, fun mem => ?_⟩
    exact queued mem
  | _ => exact ⟨registered, listed, queued⟩

theorem Turn.await_begins (turn : Turn status desk c desk')
    (ordered : Ordered exit desk) {c' : Nat} (before : desk.clients c' ≠ .await number)
    (after : desk'.clients c' = .await number) : ∃ r ∈ desk'.registered, r.port = .join number ∧
      r ∉ desk'.unregistered ∧ (r ∈ desk'.delivered → desk'.inbox (.join number) ≠ []) := by
  have fresh := ordered.fresh (.join number)
  have listed : ⟨desk.nextNumber, .join number⟩ ∉ desk.unregistered :=
    fun mem => fresh (ordered.undone _ mem)
  cases turn with
  | pushes port here =>
    have awaits : returned port = .await number := by
      simp only [Desk.goto, Desk.register] at after
      grind
    obtain rfl := await_of_returned awaits
    refine ⟨⟨desk.nextNumber, .join number⟩, mem_append_right _ (mem_singleton_self _),
      rfl, listed, fun mem => ?_⟩
    exact absurd (ordered.known _ (mem_append_right _ mem)) fresh
  | sends port aborted here =>
    have awaits : returned port = .await number := by
      simp only [Desk.goto, Desk.register, Desk.deliver] at after
      grind
    obtain rfl := await_of_returned awaits
    refine ⟨⟨desk.nextNumber, .join number⟩, mem_append_right _ (mem_singleton_self _),
      rfl, listed, fun _ => ?_⟩
    exact (desk.register _).deliver_inbox_ne_nil aborted fun other =>
      absurd rfl other
  | _ =>
    simp only [Desk.goto, Desk.drop] at after
    grind

theorem Joins.turn (joins : Joins desk) (ordered : Ordered exit desk)
    (turn : Turn status desk c desk') : Joins desk' where
  newer c' number joining := by
    have older := joins.newer c' number
    have more := turn.nextJoin_le
    have moved := turn.joining c'
    grind
  alone c₁ c₂ number joining₁ joining₂ := by
    have same := joins.alone c₁ c₂ number
    have older₁ := joins.newer c₁ number
    have older₂ := joins.newer c₂ number
    have moved₁ := turn.joining c₁
    have moved₂ := turn.joining c₂
    grind
  awaited c' number waits := by
    by_cases before : desk.clients c' = .await number
    · obtain ⟨r, registered, port, listed, queued⟩ := joins.awaited c' number before
      obtain ⟨registered', listed', queued'⟩ :=
        turn.await_kept ordered joins.alone before waits registered port listed queued
      exact ⟨r, registered', port, listed', queued'⟩
    · exact turn.await_begins ordered before waits

end Joins

/-- Once the terminated status has been stored, no thread of the ractor is about to store another
one. -/
def Calm (s : Life) : Prop := s.exit.flag = true → ∀ t, (s.crew.threads t).stores = false

structure Sound (s : Life) : Prop where
  calm : Calm s
  /-- The status says whether `finish` has stored it. -/
  status : s.status = .terminated ↔ s.exit.flag = true
  guarded : Guarded s.desk
  closed : Closed s.exit s.desk
  ordered : Ordered s.exit s.desk
  joins : Joins s.desk

theorem unborn_sound : Sound unborn where
  calm := fun flag => by cases flag
  status := by simp [unborn, Exit.flag]
  guarded c := by simp [unborn, Call.holds]
  closed := ⟨by simp [unborn], by simp [unborn]⟩
  ordered :=
    ⟨by simp [unborn], by simp [ledger, unborn, Exit.pending], by simp [ledger, unborn, Exit.pending],
      by simp [unborn], by simp [unborn]⟩
  joins :=
    ⟨by simp [unborn, Call.joining], by simp [unborn, Call.joining], by simp [unborn]⟩

theorem Joins.deliver {desk : Desk} (joins : Joins desk) (r : Registration) (aborted : Bool) :
    Joins (desk.deliver r aborted) where
  newer := joins.newer
  alone := joins.alone
  awaited c number waits := by
    obtain ⟨r', registered, port, listed, queued⟩ := joins.awaited c number waits
    refine ⟨r', registered, port, listed, fun mem => ?_⟩
    apply Desk.deliver_inbox_ne_nil
    intro other
    rcases mem_append.mp mem with old | new
    · exact queued old
    · rw [mem_singleton.mp new] at port
      exact absurd port.symm other

variable {s : Life} {s' : Life}

theorem exitStep_sound {a : ExitAction} (sound : Sound s)
    (stepped : exitStep s a = some s') (calm : Calm s') : Sound s' := by
  have status := sound.status
  have closed := sound.closed
  have ordered := sound.ordered
  have joins := sound.joins
  cases a with
  | begin | storeTerminated =>
    simp only [exitStep, ite_none_right_eq_some, some.injEq] at stepped
    obtain ⟨before, rfl⟩ := stepped
    rw [before] at ordered
    refine ⟨calm, by simp [Exit.flag], sound.guarded, ⟨fun _ _ _ => rfl, fun took => by cases took⟩,
      ordered.moved (.refl _) rfl rfl rfl, joins⟩
  | storeOutcome aborted | clearPorts =>
    simp only [exitStep, ite_none_right_eq_some, some.injEq] at stepped
    obtain ⟨⟨before, _⟩, rfl⟩ := stepped
    rw [before] at status ordered
    refine ⟨calm, status, sound.guarded, ⟨fun _ _ _ => rfl, fun took => by cases took⟩,
      ordered.moved (.refl _) rfl rfl rfl, joins⟩
  | takeMonitors =>
    simp only [exitStep, ite_none_right_eq_some, some.injEq] at stepped
    obtain ⟨⟨cleared, free⟩, rfl⟩ := stepped
    rw [cleared] at status ordered
    have nobody : ∀ c port, s.desk.clients c ≠ .push port := by
      intro c port here
      have held := (sound.guarded c).mpr (by rw [here]; rfl)
      rw [free] at held
      cases held
    refine ⟨calm, status, sound.guarded, ⟨fun c port here => absurd here (nobody c port),
      fun _ => rfl⟩, ordered.moved ?_ rfl rfl rfl, ⟨joins.newer, joins.alone, joins.awaited⟩⟩
    simp [ledger, Exit.pending]
  | sendToken =>
    cases sending : s.exit with
    | sending left =>
      cases left with
      | nil => simp [exitStep, sending] at stepped
      | cons r rest =>
        simp only [exitStep, sending, some.injEq] at stepped
        subst stepped
        rw [sending] at status closed ordered
        refine ⟨calm, status, sound.guarded, ⟨closed.pushing, closed.empty⟩,
          ordered.moved ?_ rfl rfl rfl, joins.deliver _ _⟩
        have moved := perm_append_singleton r (rest ++ s.desk.delivered)
        have monitors := moved.append_left s.desk.monitors
        simpa [ledger, Exit.pending, Desk.deliver] using monitors
    | _ => simp [exitStep, sending] at stepped
  | finish =>
    simp only [exitStep, ite_none_right_eq_some, some.injEq] at stepped
    obtain ⟨sending, rfl⟩ := stepped
    rw [sending] at status closed ordered
    exact ⟨calm, status, sound.guarded, ⟨closed.pushing, closed.empty⟩,
      ordered.moved (.refl _) rfl rfl rfl, joins⟩

variable {a : LifeAction}

theorem lifeStep_flag (flag : s.exit.flag = true)
    (stepped : lifeStep s a = some s') : s'.exit.flag = true := by
  cases a with
  | exit a => cases a <;> grind [lifeStep, exitStep, Exit.flag]
  | crew t a =>
    obtain ⟨_, _, _, rfl⟩ := lifeStep_crew stepped
    exact flag
  | desk c a =>
    obtain ⟨_, _, rfl⟩ := lifeStep_desk stepped
    exact flag
  | mail port v =>
    obtain ⟨_, rfl⟩ := lifeStep_mail stepped
    exact flag

theorem lifeStep_sound (sound : Sound s)
    (stepped : lifeStep s a = some s') (calm : Calm s') : Sound s' := by
  cases a with
  | exit a => exact exitStep_sound sound stepped calm
  | crew t a =>
    obtain ⟨status', crew', crewed, rfl⟩ := lifeStep_crew stepped
    have same : status' = .terminated ↔ s.exit.flag = true := by
      have status := sound.status
      rcases crewStep_status crewed with rfl | ⟨other, stores⟩
      · exact status
      · -- a thread that stores a status has none of `finish` to store over
        have before : ¬ s.exit.flag = true := by
          intro flag
          rw [sound.calm flag t] at stores
          cases stores
        exact iff_of_false other before
    exact ⟨calm, same, sound.guarded, sound.closed, sound.ordered, sound.joins⟩
  | desk c a =>
    obtain ⟨desk', desked, rfl⟩ := lifeStep_desk stepped
    have turn := deskStep_turn desked
    exact ⟨calm, sound.status, sound.guarded.turn turn, sound.closed.turn sound.status.mpr turn,
      sound.ordered.entered turn.entered, sound.joins.turn sound.ordered turn⟩
  | mail port v =>
    obtain ⟨_, rfl⟩ := lifeStep_mail stepped
    exact ⟨calm, sound.status, sound.guarded, sound.closed, sound.ordered, sound.joins⟩

theorem Sound.along (sound : Sound s) (path : life.Path Calm s s') : Sound s' :=
  path.keeps (fun _ _ _ sound stepped calm => lifeStep_sound sound stepped calm) sound

/-- A thread of another ractor can get out of its call. -/
def Returns (s : Life) (c : Nat) : Prop :=
  ∃ s', life.Path Calm s s' ∧ s'.desk.clients c = .out

section Finished

variable {s : Life} {c c' : Nat} {a : DeskAction} {desk' : Desk}

section

variable (sound : Sound s)

include sound

theorem Sound.deskPath (stepped : deskStep s.status s.outcome s.desk c a = some desk') :
    life.Path Calm s { s with desk := desk' } := by
  refine .next (.desk c a) .refl ?_ sound.calm
  change (deskStep s.status s.outcome s.desk c a).map _ = _
  rw [stepped]
  rfl

theorem Sound.returns (stepped : deskStep s.status s.outcome s.desk c a = some desk')
    (later : Sound { s with desk := desk' } → Returns { s with desk := desk' } c') :
    Returns s c' := by
  have path := sound.deskPath stepped
  obtain ⟨s', rest, out⟩ := later (sound.along path)
  exact ⟨s', path.trans rest, out⟩

/-- Nothing waits in the list or in `finish` any more. -/
theorem Sound.delivered_of_done (done : s.exit = .done)
    (registered : r ∈ s.desk.registered) (listed : r ∉ s.desk.unregistered) :
    r ∈ s.desk.delivered := by
  have kept := sound.ordered.kept r registered listed
  have empty := sound.closed.empty (by rw [done]; rfl)
  rw [ledger, empty, done] at kept
  exact kept

/-- Whoever holds the list of a ractor that has finished sees its status, and lets the list go. -/
theorem Sound.frees (done : s.exit = .done) : ∃ desk',
    life.Path Calm s { s with desk := desk' } ∧ desk'.list = none ∧
      ((s.desk.clients c).holds = false → desk'.clients c = s.desk.clients c) := by
  cases free : s.desk.list with
  | none => exact ⟨s.desk, .refl, free, fun _ => rfl⟩
  | some holder =>
    have inside := (sound.guarded holder).mp free
    have terminated : s.status = .terminated := sound.status.mpr (by rw [done]; rfl)
    cases here : s.desk.clients holder with
    | load port =>
      have stepped : deskStep s.status s.outcome s.desk holder .load =
          some { s.desk.goto holder (.token port) with list := none } := by
        simp [deskStep, here, terminated]
      refine ⟨_, sound.deskPath stepped, rfl, fun outside => ?_⟩
      have other : c ≠ holder := by
        rintro rfl
        rw [inside] at outside
        cases outside
      simp [Desk.goto, update_of_ne other]
    | push port =>
      have before := sound.closed.pushing holder port here
      rw [done] at before
      cases before
    | _ =>
      rw [here] at inside
      cases inside

variable {number : Nat}

theorem Sound.returns_leave (done : s.exit = .done) (here : s.desk.clients c = .leave number) :
    Returns s c := by
  obtain ⟨desk', path, free, same⟩ := sound.frees done
  have stays : desk'.clients c = .leave number := by
    rw [same (by rw [here]; rfl), here]
  have stepped : deskStep s.status s.outcome desk' c .leave =
      some ((desk'.drop (.join number)).goto c .out) := by
    simp [deskStep, stays, free]
  refine ⟨_, path.trans ((sound.along path).deskPath stepped), ?_⟩
  simp [Desk.goto]

theorem Sound.returns_await (done : s.exit = .done) (here : s.desk.clients c = .await number) :
    Returns s c := by
  obtain ⟨r, registered, _, listed, queued⟩ := sound.joins.awaited c number here
  have delivered := sound.delivered_of_done done registered listed
  obtain ⟨token, rest, tokens⟩ := exists_cons_of_ne_nil (queued delivered)
  have stepped : deskStep s.status s.outcome s.desk c .receive =
      some { s.desk.goto c (.leave number) with
        inbox := update s.desk.inbox (.join number) rest } := by
    simp [deskStep, here, tokens]
  apply sound.returns stepped
  intro sound'
  exact sound'.returns_leave done (update_self ..)

theorem Sound.returns_send (done : s.exit = .done) {aborted : Bool}
    (here : s.desk.clients c = .send (.join number) aborted) : Returns s c := by
  have stepped : deskStep s.status s.outcome s.desk c .send =
      some (((s.desk.register (.join number)).deliver ⟨s.desk.nextNumber, .join number⟩ aborted).goto
        c (.await number)) := by
    simp [deskStep, here, returned]
  apply sound.returns stepped
  intro sound'
  exact sound'.returns_await done (update_self ..)

end

section

variable (sound : Sound s) (done : s.exit = .done)

include sound done

theorem Sound.returns_token (here : s.desk.clients c = .token (.join number)) : Returns s c := by
  have stepped : deskStep s.status s.outcome s.desk c .token =
      some (s.desk.goto c (.send (.join number) (s.outcome = some true))) := by
    simp [deskStep, here]
  apply sound.returns stepped
  intro sound'
  exact sound'.returns_send done (update_self ..)

theorem Sound.returns_load (here : s.desk.clients c = .load (.join number)) : Returns s c := by
  have terminated : s.status = .terminated := sound.status.mpr (by rw [done]; rfl)
  have stepped : deskStep s.status s.outcome s.desk c .load =
      some { s.desk.goto c (.token (.join number)) with list := none } := by
    simp [deskStep, here, terminated]
  apply sound.returns stepped
  intro sound'
  exact sound'.returns_token done (update_self ..)

theorem Sound.returns_enter (here : s.desk.clients c = .enter (.join number)) : Returns s c := by
  obtain ⟨desk', path, free, same⟩ := sound.frees done
  have stays : desk'.clients c = .enter (.join number) := by
    rw [same (by rw [here]; rfl), here]
  have stepped : deskStep s.status s.outcome desk' c .lock =
      some { desk'.goto c (.load (.join number)) with list := some c } := by
    simp [deskStep, stays, free]
  have later : Returns { s with desk := desk' } c := by
    apply (sound.along path).returns stepped
    intro sound'
    exact sound'.returns_load done (update_self ..)
  obtain ⟨s', rest, out⟩ := later
  exact ⟨s', path.trans rest, out⟩

/-- Wherever a join stands when the ractor has finished, it returns. -/
theorem Sound.join_returns (joining : (s.desk.clients c).joining = some number) : Returns s c := by
  have port_of {port : MonitorPort} (joining : port.joining = some number) :
      port = .join number := by
    cases port <;> cases joining
    rfl
  cases here : s.desk.clients c with
  | out =>
    rw [here] at joining
    cases joining
  | enter port =>
    rw [here] at joining
    obtain rfl := port_of joining
    exact sound.returns_enter done here
  | load port =>
    rw [here] at joining
    obtain rfl := port_of joining
    exact sound.returns_load done here
  | push port =>
    have before := sound.closed.pushing c port here
    rw [done] at before
    cases before
  | token port =>
    rw [here] at joining
    obtain rfl := port_of joining
    exact sound.returns_token done here
  | send port aborted =>
    rw [here] at joining
    obtain rfl := port_of joining
    exact sound.returns_send done here
  | await number => exact sound.returns_await done here
  | leave number => exact sound.returns_leave done here

end

end Finished

/-- In a calm life the terminated status stays, no registration is sent two tokens and none without
a registration, every registration that is not undone has been sent one when `finish` is done,
whenever it was made, and a join of a ractor that has finished returns. -/
theorem termination_token_once (s : Life) (reached : life.Reach Calm s) :
    (s.status = .terminated → ∀ s', life.Path Calm s s' → s'.status = .terminated) ∧
    (∀ r, s.desk.delivered.count r ≤ 1) ∧ (∀ r ∈ s.desk.delivered, r ∈ s.desk.registered) ∧
    (s.exit = .done → ∀ r ∈ s.desk.registered, r ∉ s.desk.unregistered →
      s.desk.delivered.count r = 1) ∧
    (s.exit = .done → ∀ c number, (s.desk.clients c).joining = some number → Returns s c) := by
  have sound : Sound s := unborn_sound.along reached
  have once : s.desk.delivered.Nodup := sound.ordered.once.of_append_right
  refine ⟨fun terminated s' path => ?_, fun r => nodup_iff_count_le_one.mp once r,
    fun r member => sound.ordered.known r (mem_append_right _ member),
    fun done r registered listed => ?_, fun done c number => sound.join_returns done⟩
  · have keeps : ∀ s a s', s.exit.flag = true → life.step s a = some s' → Calm s' →
        s'.exit.flag = true := fun s a s' flag stepped _ => lifeStep_flag flag stepped
    have flag := path.keeps keeps (sound.status.mp terminated)
    exact (sound.along path).status.mpr flag
  · exact count_eq_one_of_mem once (sound.delivered_of_done done registered listed)

/-- One join before the ractor ends, which waits for `finish`, and a port that is registered
afterwards. -/
def earlyAndLate : List LifeAction :=
  [.exit .begin, .desk 0 .join, .desk 0 .lock, .desk 0 .load, .desk 0 .push,
    .exit (.storeOutcome false), .exit .storeTerminated, .exit .clearPorts, .exit .takeMonitors,
    .exit .sendToken, .exit .finish, .desk 1 (.monitor 7), .desk 1 .lock, .desk 1 .load,
    .desk 1 .token, .desk 1 .send]

theorem lifeStep_threads (noCrew : ∀ t b, a ≠ .crew t b)
    (stepped : lifeStep s a = some s') : s'.crew.threads = s.crew.threads := by
  cases a with
  | exit a => cases a <;> grind [lifeStep, exitStep]
  | crew t b => exact absurd rfl (noCrew t b)
  | desk c a =>
    obtain ⟨_, _, rfl⟩ := lifeStep_desk stepped
    rfl
  | mail port v =>
    obtain ⟨_, rfl⟩ := lifeStep_mail stepped
    rfl

theorem calm_of_noCrew {as : List LifeAction} (noCrew : ∀ a ∈ as, ∀ t b, a ≠ .crew t b)
    (ran : life.run unborn as = some s) : life.Reach Calm s := by
  have within : ∀ s : Life, (∀ t, s.crew.threads t = .out) → Calm s := by
    intro s out _ t
    rw [out t]
    rfl
  apply StepSystem.path_of_run within _ (fun _ => rfl) ran
  intro a mem s s' out stepped t
  rw [lifeStep_threads (noCrew a mem) stepped]
  exact out t

theorem termination_token_early_and_late : ∃ s, life.Reach Calm s ∧ s.exit = .done ∧
    s.desk.delivered.count ⟨0, .join 0⟩ = 1 ∧ s.desk.delivered.count ⟨1, .user 7⟩ = 1 ∧
      Returns s 0 := by
  obtain ⟨s, ran⟩ : ∃ s, life.run unborn earlyAndLate = some s := ⟨_, rfl⟩
  have reached : life.Reach Calm s := calm_of_noCrew (by simp [earlyAndLate]) ran
  cases ran
  have once := termination_token_once _ reached
  exact ⟨_, reached, rfl, once.2.2.2.1 rfl _ (by decide) (by decide),
    once.2.2.2.1 rfl _ (by decide) (by decide), once.2.2.2.2 rfl 0 0 rfl⟩

/-- A join waits for a token that nobody will send. -/
structure Stranded (c number : Nat) (s : Life) : Prop where
  done : s.exit = .done
  waits : s.desk.clients c = .await number
  empty : s.desk.inbox (.join number) = []
  alone : ∀ c', (s.desk.clients c').joining = some number → c' = c
  older : number < s.desk.nextJoin

theorem Stranded.turn {c c' : Nat} {desk' : Desk}
    (stranded : Stranded c number s) (turn : Turn s.status s.desk c' desk') :
    Stranded c number { s with desk := desk' } where
  done := stranded.done
  waits := by
    have waits := stranded.waits
    have empty := stranded.empty
    cases turn <;>
      simp only [Desk.goto, Desk.register, Desk.drop, Desk.deliver] <;> grind
  empty := by
    have waits := stranded.waits
    have empty := stranded.empty
    have alone := stranded.alone c'
    cases turn <;>
      simp only [Desk.goto, Desk.register, Desk.drop, Desk.deliver] <;>
      grind [Call.joining, MonitorPort.joining]
  alone c'' joining := by
    have alone := stranded.alone c''
    have older := stranded.older
    have moved := turn.joining c''
    grind
  older := Nat.lt_of_lt_of_le stranded.older turn.nextJoin_le

theorem Stranded.step (stranded : Stranded c number s)
    (stepped : lifeStep s a = some s') : Stranded c number s' := by
  obtain ⟨done, waits, empty, alone, older⟩ := stranded
  cases a with
  | exit a => cases a <;> simp [lifeStep, exitStep, done] at stepped
  | crew t a =>
    obtain ⟨_, _, _, rfl⟩ := lifeStep_crew stepped
    exact ⟨done, waits, empty, alone, older⟩
  | desk c' a =>
    obtain ⟨desk', desked, rfl⟩ := lifeStep_desk stepped
    exact Stranded.turn ⟨done, waits, empty, alone, older⟩ (deskStep_turn desked)
  | mail port v =>
    obtain ⟨_, rfl⟩ := lifeStep_mail stepped
    exact ⟨done, waits, empty, alone, older⟩

/-- A thread of the ractor sleeps in a receive while the ractor ends, and then wakes up. A join
that comes afterwards finds the running status. -/
def wokenLate : List LifeAction :=
  [.exit .begin, .crew 1 (.call [0]), .crew 1 .lock, .crew 1 .look, .crew 1 .storeBlocking,
    .crew 1 .wait, .exit (.storeOutcome false), .exit .storeTerminated]

def joinedLate : List LifeAction :=
  [.exit .clearPorts, .exit .takeMonitors, .exit .finish, .crew 1 .wake, .crew 1 .storeRunning,
    .desk 0 .join, .desk 0 .lock, .desk 0 .load, .desk 0 .push]

theorem join_waits_forever : ∃ s s', life.Reach (fun _ => True) s ∧ s.status = .terminated ∧
    life.Path (fun _ => True) s s' ∧ s'.status = .running ∧ s'.exit = .done ∧
    s'.desk.registered = [⟨0, .join 0⟩] ∧ s'.desk.unregistered = [] ∧ s'.desk.delivered = [] ∧
    ∀ s'', life.Path (fun _ => True) s' s'' → s''.desk.clients 0 = .await 0 ∧
      s''.desk.inbox (.join 0) = [] := by
  obtain ⟨s, ran⟩ : ∃ s, life.run unborn wokenLate = some s := ⟨_, rfl⟩
  have reached := StepSystem.path_run ran
  cases ran
  refine ⟨_, _, reached, rfl, @StepSystem.path_run _ _ _ joinedLate _ _ rfl, rfl, rfl, rfl, rfl, rfl, ?_⟩
  intro s'' onward
  have stranded : Stranded 0 0 s'' :=
    onward.keeps (fun _ _ _ stranded stepped _ => stranded.step stepped)
      ⟨rfl, rfl, rfl, fun c joining => ?_, Nat.zero_lt_one⟩
  · exact ⟨stranded.waits, stranded.empty⟩
  · cases c with
    | zero => rfl
    | succ c =>
      have nothing : none = some 0 := joining
      cases nothing

end Zeo.Ractor
