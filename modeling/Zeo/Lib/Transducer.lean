import Mathlib.Data.List.Basic

/-!
# Chains of push transducers

A chain of links, each with a state of its own, through which values are pushed one at a time into
a collecting sink. A link answers a value with the values it lets through, its next state, and
whether the whole run is over. When the input ends without a stop, the links are flushed from the
first to the last, up to a stop.

When every link computes a list function, a run is the composition of these functions as far as the
first link that stops; the links behind that one are fed and not flushed. A bounded sink collects as
much as it asks for.
-/

namespace Zeo.Lib.Transducer

open List

inductive Flow where
  | proceed
  | stop
deriving DecidableEq, Repr

structure Reaction (S V : Type) where
  outs : List V
  next : S
  stop : Bool

/-- The links of a kind `O` as machines over the values `V`. -/
structure Machine (O V : Type) where
  State : O → Type
  start : (op : O) → State op
  step : (op : O) → State op → V → Reaction (State op) V
  held : (op : O) → State op → List V
  drained : (op : O) → State op → State op

/-- Where the values end up: collected, up to a limit if there is one. -/
structure Sink (V : Type) where
  out : List V
  limit : Option Nat

def Sink.accept {V : Type} (sink : Sink V) (v : V) : Flow × Sink V :=
  let out := sink.out ++ [v]
  (if sink.limit.any (· ≤ out.length) then .stop else .proceed, { sink with out })

/-- Hand each value to `body` until one answers stop. -/
def feed {V S : Type} (body : V → S → Flow × S) : List V → S → Flow × S
  | [], s => (.proceed, s)
  | v :: vs, s =>
    match body v s with
    | (.stop, s') => (.stop, s')
    | (.proceed, s') => feed body vs s'

theorem feed_preserves {V S : Type} {body : V → S → Flow × S} {P : S → Prop}
    (keeps : ∀ v s, P s → P (body v s).2) (vs : List V) (s : S) (holds : P s) :
    P (feed body vs s).2 := by
  induction vs generalizing s with
  | nil => exact holds
  | cons v vs ih =>
    have kept := keeps v s holds
    unfold feed
    rcases answer : body v s with ⟨_ | _, s'⟩
    · rw [answer] at kept
      exact ih s' kept
    · rw [answer] at kept
      exact kept

namespace Machine

variable {O V : Type} (m : Machine O V)

def States : List O → Type
  | [] => Unit
  | op :: ops => m.State op × States ops

def starts : (ops : List O) → m.States ops
  | [] => ()
  | op :: ops => (m.start op, starts ops)

def push : (ops : List O) → V → m.States ops × Sink V → Flow × (m.States ops × Sink V)
  | [], v, (st, sink) => ((sink.accept v).1, st, (sink.accept v).2)
  | op :: ops, v, ((s, st), sink) =>
    let answer := m.step op s v
    let fed := feed (push ops) answer.outs (st, sink)
    (if answer.stop then .stop else fed.1, (answer.next, fed.2.1), fed.2.2)

/-- Flush the links from the first to the last, up to a stop. -/
def flush : (ops : List O) → m.States ops × Sink V → m.States ops × Sink V
  | [], run => run
  | op :: ops, ((s, st), sink) =>
    match feed (m.push ops) (m.held op s) (st, sink) with
    | (.stop, st', sink') => ((m.drained op s, st'), sink')
    | (.proceed, rest) =>
      let flushed := flush ops rest
      ((m.drained op s, flushed.1), flushed.2)

/-- Push the values of an input, and flush if it ends without a stop. -/
def drive (ops : List O) (input : List V) (limit : Option Nat) : m.States ops × Sink V :=
  match feed (m.push ops) input (m.starts ops, ⟨[], limit⟩) with
  | (.stop, run) => run
  | (.proceed, run) => m.flush ops run

/-- What a link lets through of an input, up to a stop. -/
def emits (op : O) : m.State op → List V → List V
  | _, [] => []
  | s, v :: vs =>
    (m.step op s v).outs ++ if (m.step op s v).stop then [] else emits op (m.step op s v).next vs

/-- Whether a link stops somewhere in an input. -/
def halts (op : O) : m.State op → List V → Bool
  | _, [] => false
  | s, v :: vs => (m.step op s v).stop || halts op (m.step op s v).next vs

/-- The state an input without a stop leaves a link in. -/
def leaves (op : O) : m.State op → List V → m.State op
  | s, [] => s
  | s, v :: vs => leaves op (m.step op s v).next vs

/-- Every link computes a list function: `rest op s` is what link `op` makes of the input still to
come when it is in state `s`. -/
structure Computes (rest : (op : O) → m.State op → List V → List V)
    (Valid : (op : O) → m.State op → Prop) : Prop where
  start : ∀ op, Valid op (m.start op)
  step : ∀ op s v, Valid op s → Valid op (m.step op s v).next
  atEnd : ∀ op s, Valid op s → rest op s [] = m.held op s
  goes : ∀ op s v more, Valid op s → (m.step op s v).stop = false →
    rest op s (v :: more) = (m.step op s v).outs ++ rest op (m.step op s v).next more
  stops : ∀ op s v more, Valid op s → (m.step op s v).stop = true →
    rest op s (v :: more) = (m.step op s v).outs

/-- Go on from an answer: a stop ends the run, and otherwise the links are flushed. -/
def onward (ops : List O) : Flow × (m.States ops × Sink V) → m.States ops × Sink V
  | (.stop, run) => run
  | (.proceed, run) => m.flush ops run

variable {m} {rest : (op : O) → m.State op → List V → List V}
  {Valid : (op : O) → m.State op → Prop} {ops : List O} {S : Type}

/-- What a link computes is what it lets through, and what it holds at the end if it gets there. -/
theorem Computes.rest_eq (computes : m.Computes rest Valid) (op : O) (s : m.State op)
    (valid : Valid op s) (vs : List V) :
    rest op s vs = m.emits op s vs ++
      if m.halts op s vs then [] else m.held op (m.leaves op s vs) := by
  induction vs generalizing s with
  | nil => exact computes.atEnd op s valid
  | cons v vs ih =>
    by_cases halted : (m.step op s v).stop = true
    · rw [computes.stops op s v vs valid halted]
      simp [emits, halts, halted]
    · have goesOn : (m.step op s v).stop = false := eq_false_of_ne_true halted
      rw [computes.goes op s v vs valid goesOn, ih _ (computes.step op s v valid)]
      simp [emits, halts, leaves, goesOn]

theorem feed_step {body : V → S → Flow × S} (v : V) (vs : List V) (s : S) :
    feed body (v :: vs) s = match body v s with
      | (.stop, next) => (.stop, next)
      | (.proceed, next) => feed body vs next := rfl

/-- Feeding more values goes on where the first ones did not stop. -/
theorem feed_append {body : V → S → Flow × S} (xs ys : List V) (s : S) :
    feed body (xs ++ ys) s = match feed body xs s with
      | (.stop, next) => (.stop, next)
      | (.proceed, next) => feed body ys next := by
  induction xs generalizing s with
  | nil => rfl
  | cons x xs ih =>
    rw [cons_append, feed_step, feed_step]
    rcases body x s with ⟨_ | _, next⟩
    · exact ih next
    · rfl

/-- A chain fed an input, beside the links behind its first one fed what that lets through. -/
structure Passes (op : O) (s : m.State op) (vs : List V)
    (outer : Flow × (m.States (op :: ops) × Sink V)) (inner : Flow × (m.States ops × Sink V)) :
    Prop where
  behind : outer.2.1.2 = inner.2.1
  sink : outer.2.2 = inner.2.2
  stops : outer.1 = .stop ↔ inner.1 = .stop ∨ m.halts op s vs = true
  state : outer.1 = .proceed → outer.2.1.1 = m.leaves op s vs

/-- By induction on the input: a stop behind the link and a stop of the link itself both end it. -/
theorem feed_cons (op : O) (vs : List V) (s : m.State op) (st : m.States ops) (sink : Sink V) :
    Passes op s vs (feed (m.push (op :: ops)) vs ((s, st), sink))
      (feed (m.push ops) (m.emits op s vs) (st, sink)) := by
  induction vs generalizing s st sink with
  | nil => exact ⟨rfl, rfl, by simp [feed, emits, halts], fun _ => rfl⟩
  | cons v vs ih =>
    rw [feed_step, emits, feed_append]
    simp only [push]
    rcases feed (m.push ops) (m.step op s v).outs (st, sink) with ⟨_ | _, st', sink'⟩
    · by_cases halted : (m.step op s v).stop = true
      · simp only [halted, if_true, feed]
        exact ⟨rfl, rfl, by simp [halts, halted], fun goesOn => by cases goesOn⟩
      · have goesOn : (m.step op s v).stop = false := eq_false_of_ne_true halted
        obtain ⟨behind, same, stops, state⟩ := ih (m.step op s v).next st' sink'
        simp only [goesOn, Bool.false_eq_true, if_false]
        refine ⟨behind, same, ?_, state⟩
        rw [stops, halts, goesOn, Bool.false_or]
    · simp only [ite_self]
      exact ⟨rfl, rfl, by simp, fun goesOn => by cases goesOn⟩

theorem flush_cons (m : Machine O V) (op : O) (ops : List O) (s : m.State op)
    (st : m.States ops) (sink : Sink V) :
    (m.flush (op :: ops) ((s, st), sink)).2 =
      (m.onward ops (feed (m.push ops) (m.held op s) (st, sink))).2 := by
  unfold flush
  rcases feed (m.push ops) (m.held op s) (st, sink) with ⟨flow, run⟩
  cases flow <;> rfl

/-- A link that stops hands on what it let through and nothing is flushed behind it; one that does
not hands on what it holds as well. -/
theorem onward_cons (op : O) (vs : List V) (s : m.State op) (st : m.States ops) (sink : Sink V) :
    (m.onward (op :: ops) (feed (m.push (op :: ops)) vs ((s, st), sink))).2 =
      if m.halts op s vs then (feed (m.push ops) (m.emits op s vs) (st, sink)).2.2
      else (m.onward ops (feed (m.push ops) (m.emits op s vs ++ m.held op (m.leaves op s vs))
        (st, sink))).2 := by
  obtain ⟨behind, same, stops, state⟩ := feed_cons op vs s st sink
  rw [feed_append]
  generalize feed (m.push ops) (m.emits op s vs) (st, sink) = inner at behind same stops ⊢
  generalize feed (m.push (op :: ops)) vs ((s, st), sink) = outer at behind same stops state ⊢
  obtain ⟨innerFlow, st', sink'⟩ := inner
  obtain ⟨outerFlow, ⟨s', st''⟩, sink''⟩ := outer
  simp only at behind same stops state
  subst behind same
  cases innerFlow <;> cases outerFlow
  · have goesOn : m.halts op s vs = false := by simpa using stops
    rw [goesOn, if_neg Bool.false_ne_true, ← state rfl]
    exact flush_cons m op ops s' st'' sink''
  · have halted : m.halts op s vs = true := by simpa using stops
    rw [halted, if_pos rfl]
    rfl
  · simp at stops
  · cases m.halts op s vs <;> rfl

/-- What reaches the sink of a chain that is fed an input and never flushed. -/
def fed (m : Machine O V) (ops : List O) (input : List V) : List V :=
  (feed (m.push ops) input (m.starts ops, ⟨[], none⟩)).2.2.out

theorem feed_nil (m : Machine O V) (vs out : List V) :
    feed (m.push []) vs (m.starts [], ⟨out, none⟩) =
      (.proceed, m.starts [], ⟨out ++ vs, none⟩) := by
  induction vs generalizing out with
  | nil =>
    rw [append_nil]
    rfl
  | cons v vs ih =>
    rw [append_cons]
    exact ih (out ++ [v])

theorem fed_nil (m : Machine O V) (input : List V) : m.fed [] input = input := by
  rw [fed, feed_nil]
  rfl

theorem drive_nil (m : Machine O V) (input : List V) : (m.drive [] input none).2.out = input := by
  rw [drive, feed_nil]
  rfl

theorem fed_cons (m : Machine O V) (op : O) (ops : List O) (input : List V) :
    m.fed (op :: ops) input = m.fed ops (m.emits op (m.start op) input) :=
  congrArg Sink.out (feed_cons op input (m.start op) (m.starts ops) ⟨[], none⟩).sink

/-- An unbounded run through a first link is one through the links behind it, flushed unless the
first link stops. -/
theorem drive_cons (computes : m.Computes rest Valid) (op : O) (ops : List O) (input : List V) :
    (m.drive (op :: ops) input none).2.out =
      if m.halts op (m.start op) input then m.fed ops (rest op (m.start op) input)
      else (m.drive ops (rest op (m.start op) input) none).2.out := by
  have through := congrArg Sink.out
    (onward_cons op input (m.start op) (m.starts ops) ⟨[], none⟩)
  have computed := computes.rest_eq op (m.start op) (computes.start op) input
  by_cases halted : m.halts op (m.start op) input = true
  · rw [if_pos halted, append_nil] at computed
    rw [if_pos halted] at through ⊢
    rw [computed]
    exact through
  · rw [if_neg halted] at computed through ⊢
    rw [computed]
    exact through

theorem push_collects (m : Machine O V) (collected : List V) :
    ∀ (ops : List O) (v : V) (run : m.States ops × Sink V), collected <+: run.2.out →
      collected <+: (m.push ops v run).2.2.out := by
  intro ops
  induction ops with
  | nil =>
    rintro v ⟨st, sink⟩ before
    exact before.trans (prefix_append sink.out [v])
  | cons op ops ih =>
    rintro v ⟨⟨s, st⟩, sink⟩ before
    exact feed_preserves ih
      (m.step op s v).outs (st, sink) before

theorem flush_collects (m : Machine O V) {collected : List V} :
    ∀ (ops : List O) (run : m.States ops × Sink V), collected <+: run.2.out →
      collected <+: (m.flush ops run).2.out := by
  intro ops
  induction ops with
  | nil => exact fun run before => before
  | cons op ops ih =>
    rintro ⟨⟨s, st⟩, sink⟩ before
    have fed := feed_preserves
      (m.push_collects collected ops) (m.held op s) (st, sink) before
    simp only [flush]
    rcases answer : feed (m.push ops) (m.held op s) (st, sink) with ⟨_ | _, next⟩
    · rw [answer] at fed
      exact ih next fed
    · rw [answer] at fed
      exact fed

/-- A bounded run beside an unbounded one: still in step and short of the limit, or over with
exactly as many values as asked for. -/
def Cut (n : Nat) (full cut : Flow × (S × Sink V)) : Prop :=
  (cut.1 = full.1 ∧ cut.2.1 = full.2.1 ∧ cut.2.2 = ⟨full.2.2.out, some n⟩ ∧
      full.2.2.out.length < n ∧ full.2.2.limit = none) ∨
    (cut.1 = .stop ∧ cut.2.2.out <+: full.2.2.out ∧ cut.2.2.out.length = n)

variable {n : Nat}

theorem cut_feed (each : ∀ v st out, out.length < n →
      Cut n (m.push ops v (st, ⟨out, none⟩)) (m.push ops v (st, ⟨out, some n⟩)))
    (vs : List V) (st : m.States ops) {out : List V} (short : out.length < n) :
    Cut n (feed (m.push ops) vs (st, ⟨out, none⟩)) (feed (m.push ops) vs (st, ⟨out, some n⟩)) := by
  induction vs generalizing st out with
  | nil => exact .inl ⟨rfl, rfl, rfl, short, rfl⟩
  | cons v vs ih =>
    have step := each v st out short
    unfold feed
    rcases fullAnswer : m.push ops v (st, ⟨out, none⟩) with ⟨fullFlow, fullSt, ⟨fullOut, fullLim⟩⟩
    rcases cutAnswer : m.push ops v (st, ⟨out, some n⟩) with ⟨cutFlow, cutSt, cutSink⟩
    rw [fullAnswer, cutAnswer] at step
    rcases step with ⟨flowEq, stEq, sinkEq, shortNext, noLimit⟩ | ⟨stopped, earlier, full⟩
    · simp only at flowEq stEq sinkEq shortNext noLimit
      subst flowEq stEq sinkEq noLimit
      cases cutFlow with
      | proceed => exact ih cutSt shortNext
      | stop => exact .inl ⟨rfl, rfl, rfl, shortNext, rfl⟩
    · subst stopped
      refine .inr ⟨rfl, ?_, full⟩
      cases fullFlow with
      | proceed =>
        exact feed_preserves
          (m.push_collects cutSink.out ops) vs _ earlier
      | stop => exact earlier

theorem cut_push (m : Machine O V) :
    ∀ (ops : List O) (v : V) (st : m.States ops) (out : List V), out.length < n →
      Cut n (m.push ops v (st, ⟨out, none⟩)) (m.push ops v (st, ⟨out, some n⟩)) := by
  intro ops
  induction ops with
  | nil =>
    intro v st out short
    by_cases reached : n ≤ (out ++ [v]).length
    · refine .inr ⟨?_, prefix_rfl, ?_⟩
      · change (if (some n).any (· ≤ (out ++ [v]).length) then Flow.stop else .proceed) = .stop
        rw [if_pos (by simpa using reached)]
      · have length : (out ++ [v]).length = out.length + 1 := by simp
        change (out ++ [v]).length = n
        omega
    · refine .inl ⟨?_, rfl, rfl, Nat.lt_of_not_le reached, rfl⟩
      change (if (some n).any (· ≤ (out ++ [v]).length) then Flow.stop else .proceed) = .proceed
      rw [if_neg (by simpa using reached)]
  | cons op ops ih =>
    rintro v ⟨s, st⟩ out short
    rcases cut_feed ih (m.step op s v).outs st short with
      ⟨flowEq, stEq, sinkEq, shortNext, noLimit⟩ | ⟨stopped, earlier, full⟩
    · refine .inl ⟨?_, ?_, sinkEq, shortNext, noLimit⟩
      · change (if _ then _ else _) = (if _ then _ else _)
        rw [flowEq]
      · change (_, _) = (_, _)
        rw [stEq]
    · refine .inr ⟨?_, earlier, full⟩
      change (if _ then _ else _) = Flow.stop
      rw [stopped, ite_self]

theorem cut_take {full cut : Flow × (S × Sink V)} (isCut : Cut n full cut) :
    cut.2.2.out = full.2.2.out.take n := by
  rcases isCut with ⟨-, -, sinkEq, short, -⟩ | ⟨-, earlier, full⟩
  · rw [sinkEq, take_of_length_le (Nat.le_of_lt short)]
  · rw [← full]
    exact prefix_iff_eq_take.mp earlier

/-- A bounded run that goes on collects the first values of the unbounded one, if a flush does. -/
theorem onward_take (m : Machine O V)
    {full cut : Flow × (m.States ops × Sink V)} (fed : Cut n full cut)
    (later : ∀ (st : m.States ops) (out : List V), out.length < n →
      (m.flush ops (st, ⟨out, some n⟩)).2.out = (m.flush ops (st, ⟨out, none⟩)).2.out.take n) :
    (m.onward ops cut).2.out = (m.onward ops full).2.out.take n := by
  have taken := cut_take fed
  obtain ⟨fullFlow, fullSt, ⟨fullOut, fullLim⟩⟩ := full
  obtain ⟨cutFlow, cutSt, cutSink⟩ := cut
  rcases fed with ⟨flowEq, stEq, sinkEq, shortNext, noLimit⟩ | ⟨stopped, earlier, full⟩
  · simp only at flowEq stEq sinkEq shortNext noLimit
    subst flowEq stEq sinkEq noLimit
    cases cutFlow with
    | proceed => exact later cutSt fullOut shortNext
    | stop => exact taken
  · subst stopped
    cases fullFlow with
    | proceed =>
      rw [← full]
      exact prefix_iff_eq_take.mp (m.flush_collects ops _ earlier)
    | stop => exact taken

theorem flush_take (m : Machine O V) :
    ∀ (ops : List O) (st : m.States ops) (out : List V), out.length < n →
      (m.flush ops (st, ⟨out, some n⟩)).2.out = (m.flush ops (st, ⟨out, none⟩)).2.out.take n := by
  intro ops
  induction ops with
  | nil =>
    intro st out short
    exact (take_of_length_le (Nat.le_of_lt short)).symm
  | cons op ops ih =>
    rintro ⟨s, st⟩ out short
    rw [flush_cons, flush_cons]
    exact m.onward_take (cut_feed (m.cut_push ops) (m.held op s) st short) ih

theorem drive_take (m : Machine O V) (ops : List O) (input : List V) (some_ : 0 < n) :
    (m.drive ops input (some n)).2.out = (m.drive ops input none).2.out.take n := by
  exact m.onward_take (cut_feed (m.cut_push ops) input (m.starts ops) some_)
    (m.flush_take ops)

end Machine

end Zeo.Lib.Transducer
