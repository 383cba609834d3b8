import Zeo.Lib.StepSystem
import Zeo.Ractor.Move

/-!
# The end of a ractor

A ractor finishes once. Its main thread stores the outcome, stores the terminated status, clears the
port table, takes the list of monitors and sends each its token. Meanwhile other threads of the
ractor may stand anywhere in a receive or a select, which store the status around their wait, and
threads of other ractors register and unregister monitors, and join. An action is one lock region or
one atomic access.
-/

namespace Zeo.Ractor

open Zeo.Lib Zeo.Value

/-- The words of `status`. -/
inductive Status where
  | created
  | running
  | blocking
  | terminated
deriving DecidableEq

/-- Where a thread of the ractor stands in `port_receive_locked` or `select_wait_locked`. A receive
is a select among one port. -/
inductive Loop where
  | out
  | enter (among : List Nat)
  | look (among : List Nat)
  /-- It has found nothing and is about to store `STATUS_BLOCKING`. -/
  | announce (among : List Nat)
  /-- It is about to wait for a message, which lets the table go. -/
  | wait (among : List Nat)
  | asleep (among : List Nat)
  /-- It holds the table again and is about to store `STATUS_RUNNING`. -/
  | awake (among : List Nat)
  /-- It asks for the deadlock verdict and for interrupts. -/
  | poll (among : List Nat)
deriving DecidableEq

structure Crew where
  /-- Where each thread stands. The main thread is number 0. -/
  threads : Nat → Loop
  ports : Ports
  table : Option Nat

inductive MonitorPort where
  | user (number : Nat)
  | join (number : Nat)
deriving DecidableEq

/-- A call of `ractor_monitor` that has returned. -/
structure Registration where
  number : Nat
  port : MonitorPort
deriving DecidableEq

inductive Call where
  | out
  /-- `ractor_monitor`: it waits for the list of monitors. -/
  | enter (port : MonitorPort)
  | load (port : MonitorPort)
  | push (port : MonitorPort)
  /-- It has loaded the terminated word and let the list go. -/
  | token (port : MonitorPort)
  | send (port : MonitorPort) (aborted : Bool)
  /-- `wait_for_termination`: it receives on its own port. -/
  | await (number : Nat)
  | leave (number : Nat)
deriving DecidableEq

structure Desk where
  monitors : List Registration
  list : Option Nat
  /-- Where each thread of another ractor stands. -/
  clients : Nat → Call
  inbox : MonitorPort → List Bool
  nextNumber : Nat
  nextJoin : Nat
  registered : List Registration
  unregistered : List Registration
  /-- Those that have been sent a token, in order. -/
  delivered : List Registration

/-- Where the main thread stands in the life of the ractor. -/
inductive Exit where
  | fresh
  | body
  /-- `finish` has stored the outcome. -/
  | stored
  /-- `finish` has stored `STATUS_TERMINATED`. -/
  | flagged
  /-- `finish` has cleared the port table. -/
  | cleared
  /-- `finish` has taken the monitors and has these still to feed. -/
  | sending (rest : List Registration)
  /-- `finish` has returned. -/
  | done
deriving DecidableEq

structure Life where
  status : Status
  /-- `state`: whether the ractor was aborted, once it is terminated. -/
  outcome : Option Bool
  exit : Exit
  crew : Crew
  desk : Desk

/-- What a thread of the ractor may do in a receive or a select, and to its ports. -/
inductive CrewAction where
  | call (among : List Nat)
  | lock
  | look
  | storeBlocking
  | wait
  | wake
  | storeRunning
  | verdict
  | interrupt (raises : Bool)
  | again
  | create (port : Nat)
  | close (port : Nat)
deriving DecidableEq

/-- Look at ports in order. A message, a closed port and a missing one end the call; nothing means
that it waits. -/
def lookAmong (ports : Ports) : List Nat → Option Ports
  | [] => none
  | port :: rest =>
    match ports port with
    | none => some ports
    | some q =>
      match q.items with
      | _ :: items => some (Function.update ports port (some { q with items := items }))
      | [] => if q.closed then some ports else lookAmong ports rest

def Crew.goto (crew : Crew) (t : Nat) (loop : Loop) : Crew :=
  { crew with threads := Function.update crew.threads t loop }

/-- The part of an action on the table that needs it free. -/
def Crew.onTable (crew : Crew) (f : Ports → Ports) : Option Crew :=
  if crew.table = none then some { crew with ports := f crew.ports } else none

def crewStep (status : Status) (crew : Crew) (t : Nat) : CrewAction → Option (Status × Crew)
  | .call among =>
    if crew.threads t = .out then some (status, crew.goto t (.enter among)) else none
  | .lock =>
    match crew.threads t with
    | .enter among =>
      if crew.table = none then some (status, { crew.goto t (.look among) with table := some t })
      else none
    | _ => none
  | .look =>
    match crew.threads t with
    | .look among =>
      match lookAmong crew.ports among with
      | some ports => some (status, { crew.goto t .out with ports := ports, table := none })
      | none => some (status, crew.goto t (.announce among))
    | _ => none
  | .storeBlocking =>
    match crew.threads t with
    | .announce among => some (.blocking, crew.goto t (.wait among))
    | _ => none
  | .wait =>
    match crew.threads t with
    | .wait among => some (status, { crew.goto t (.asleep among) with table := none })
    | _ => none
  | .wake =>
    match crew.threads t with
    | .asleep among =>
      if crew.table = none then some (status, { crew.goto t (.awake among) with table := some t })
      else none
    | _ => none
  | .storeRunning =>
    match crew.threads t with
    | .awake among => some (.running, crew.goto t (.poll among))
    | _ => none
  | .verdict =>
    match crew.threads t with
    | .poll _ => some (status, { crew.goto t .out with table := none })
    | _ => none
  | .interrupt raises =>
    match crew.threads t with
    | .poll among => some (status,
        { crew.goto t (if raises then .out else .enter among) with table := none })
    | _ => none
  | .again =>
    match crew.threads t with
    | .poll among => some (status, crew.goto t (.look among))
    | _ => none
  | .create port =>
    (crew.onTable fun ports => Function.update ports port (some ⟨[], false⟩)).map
      fun crew => (status, crew)
  | .close port =>
    (crew.onTable fun ports => Function.update ports port
      ((ports port).map fun q => { q with closed := true })).map fun crew => (status, crew)

inductive DeskAction where
  /-- Call `ractor_monitor` with a port of the program. -/
  | monitor (number : Nat)
  /-- Call `wait_for_termination`, which makes its own port. -/
  | join
  | lock
  | load
  | push
  | token
  | send
  | receive
  | leave
  /-- `ractor_unmonitor` with a port of the program. -/
  | unmonitor (number : Nat)
  | drain (number : Nat)
deriving DecidableEq

/-- Where a call of `ractor_monitor` returns to. -/
def returned : MonitorPort → Call
  | .user _ => .out
  | .join number => .await number

def Desk.goto (desk : Desk) (c : Nat) (call : Call) : Desk :=
  { desk with clients := Function.update desk.clients c call }

/-- `port_send` of a token to the port of a registration, which its creator has open; at a closed or
missing port nothing is queued, and both callers drop the error. -/
def Desk.deliver (desk : Desk) (r : Registration) (aborted : Bool) : Desk :=
  { desk with
    inbox := Function.update desk.inbox r.port (desk.inbox r.port ++ [aborted])
    delivered := desk.delivered ++ [r] }

/-- `ractor_unmonitor`: the port leaves the list. -/
def Desk.drop (desk : Desk) (port : MonitorPort) : Desk :=
  { desk with
    monitors := desk.monitors.filter fun r => r.port ≠ port
    unregistered := desk.unregistered ++ desk.registered.filter fun r => r.port = port }

/-- A call of `ractor_monitor` is done. -/
def Desk.register (desk : Desk) (port : MonitorPort) : Desk :=
  { desk with
    nextNumber := desk.nextNumber + 1
    registered := desk.registered ++ [⟨desk.nextNumber, port⟩] }

/-- A thread of another ractor takes an action, with the status and the outcome it may read. -/
def deskStep (status : Status) (outcome : Option Bool) (desk : Desk) (c : Nat) :
    DeskAction → Option Desk
  | .monitor number =>
    if desk.clients c = .out then some (desk.goto c (.enter (.user number))) else none
  | .join =>
    if desk.clients c = .out then
      some { desk.goto c (.enter (.join desk.nextJoin)) with nextJoin := desk.nextJoin + 1 }
    else none
  | .lock =>
    match desk.clients c with
    | .enter port =>
      if desk.list = none then some { desk.goto c (.load port) with list := some c } else none
    | _ => none
  | .load =>
    match desk.clients c with
    | .load port =>
      if status = .terminated then some { desk.goto c (.token port) with list := none }
      else some (desk.goto c (.push port))
    | _ => none
  | .push =>
    match desk.clients c with
    | .push port => some { (desk.register port).goto c (returned port) with
        monitors := desk.monitors ++ [⟨desk.nextNumber, port⟩]
        list := none }
    | _ => none
  | .token =>
    match desk.clients c with
    | .token port => some (desk.goto c (.send port (outcome = some true)))
    | _ => none
  | .send =>
    match desk.clients c with
    | .send port aborted =>
      some (((desk.register port).deliver ⟨desk.nextNumber, port⟩ aborted).goto c (returned port))
    | _ => none
  | .receive =>
    match desk.clients c with
    | .await number =>
      match desk.inbox (.join number) with
      | _ :: rest => some { desk.goto c (.leave number) with
          inbox := Function.update desk.inbox (.join number) rest }
      | [] => none
    | _ => none
  | .leave =>
    match desk.clients c with
    | .leave number =>
      if desk.list = none then some ((desk.drop (.join number)).goto c .out) else none
    | _ => none
  | .unmonitor number =>
    if desk.clients c = .out ∧ desk.list = none then some (desk.drop (.user number)) else none
  | .drain number =>
    some { desk with
      inbox := Function.update desk.inbox (.user number) (desk.inbox (.user number)).tail }

inductive ExitAction where
  /-- The thread starts and stores `STATUS_RUNNING`. -/
  | begin
  | storeOutcome (aborted : Bool)
  | storeTerminated
  | clearPorts
  | takeMonitors
  | sendToken
  | finish
deriving DecidableEq

def exitStep (s : Life) : ExitAction → Option Life
  | .begin =>
    if s.exit = .fresh then some { s with exit := .body, status := .running } else none
  | .storeOutcome aborted =>
    if s.exit = .body ∧ s.crew.threads 0 = .out then
      some { s with exit := .stored, outcome := some aborted }
    else none
  | .storeTerminated =>
    if s.exit = .stored then some { s with exit := .flagged, status := .terminated } else none
  | .clearPorts =>
    if s.exit = .flagged ∧ s.crew.table = none then
      some { s with exit := .cleared, crew := { s.crew with ports := fun _ => none } }
    else none
  | .takeMonitors =>
    if s.exit = .cleared ∧ s.desk.list = none then
      some { s with exit := .sending s.desk.monitors, desk := { s.desk with monitors := [] } }
    else none
  | .sendToken =>
    match s.exit with
    | .sending (r :: rest) =>
      some { s with exit := .sending rest, desk := s.desk.deliver r (s.outcome = some true) }
    | _ => none
  | .finish => if s.exit = .sending [] then some { s with exit := .done } else none

inductive LifeAction where
  | exit (a : ExitAction)
  | crew (t : Nat) (a : CrewAction)
  | desk (c : Nat) (a : DeskAction)
  | mail (port : Nat) (v : RubyValue)
deriving DecidableEq

/-- The main thread acts as a thread of the ractor only in its body, and the others only once the
ractor has started. -/
def mayAct (exit : Exit) (t : Nat) : Bool := if t = 0 then exit = .body else exit ≠ .fresh

def lifeStep (s : Life) : LifeAction → Option Life
  | .exit a => exitStep s a
  | .crew t a =>
    if mayAct s.exit t then
      (crewStep s.status s.crew t a).map fun next => { s with status := next.1, crew := next.2 }
    else none
  | .desk c a => (deskStep s.status s.outcome s.desk c a).map fun desk => { s with desk := desk }
  | .mail port v =>
    (s.crew.onTable fun ports => ports.push port v).map fun crew => { s with crew := crew }

/-- A ractor that has been made and not started, with its default port. -/
def unborn : Life where
  status := .created
  outcome := none
  exit := .fresh
  crew := ⟨fun _ => .out, fun port => if port = 0 then some ⟨[], false⟩ else none, none⟩
  desk := ⟨[], none, fun _ => .out, fun _ => [], 0, 0, [], [], []⟩

def life : StepSystem Life LifeAction := ⟨unborn, lifeStep⟩

end Zeo.Ractor
