import Zeo.Ractor.Shareable

/-!
# Crossing between ractors

A message passes by reference where it is shareable and is rebuilt where it is not. Each rebuilt
node is entered in a table before what it holds is crossed, so that a cycle comes back to it. A
message that is moved is rebuilt in the same way; when that has succeeded, every node that was
rebuilt is poisoned.
-/

namespace Zeo.Ractor

open Zeo.Lib Zeo.Value

variable {eql : UserEql} {im : ValueMap eql}

inductive CrossMode where
  | copy
  | move
deriving DecidableEq

inductive CrossFail where
  /-- `CrossFail`: the exception to raise. -/
  | refused (cls message : String)
  /-- The native stack ends while a key is projected. -/
  | overflow
  | fuel
deriving DecidableEq

/-- The rest of the runtime, as far as a crossing asks it. -/
structure Runtime (im : ValueMap eql) where
  /-- What a projection of a key reads besides strings, arrays, hashes and ranges. -/
  world : Heap im → World
  /-- `to_display_string`. -/
  display : Heap im → RubyValue → String
  /-- `class_name_of_value`. -/
  className : Heap im → RubyValue → String
  /-- Whether a class is `IO` or below. -/
  isIoClass : Nat → Bool

/-- What a projection of a key reads. -/
def Runtime.worldAt (rt : Runtime im) (h : Heap im) : World :=
  { rt.world h with
    str := h.str
    strFrozen := h.frozen
    array := h.elems
    hashPairs := fun addr => hashPairsSnapshot (h.table addr)
    range := fun addr =>
      ((h.range addr).1.getD .nil, (h.range addr).2.1.getD .nil, (h.range addr).2.2)
    builtinPayload := fun addr => (h.object addr).payload }

/-- `CrossState`, with the heap it works on. -/
structure CrossState (im : ValueMap eql) where
  mode : CrossMode
  built : Pairs
  /-- The nodes to poison, in the order they were met. -/
  sources : List RubyValue
  heap : Heap im
  /-- Whether a `hash` of the program has raised while a key was stored. -/
  parked : Bool

/-- A computation of a crossing. A failure leaves the state it was met in. -/
abbrev Cross (im : ValueMap eql) (α : Type) : Type :=
  EStateM CrossFail (CrossState im) α

namespace Heap

def reserve (h : Heap im) (bound : Addr) : Heap im :=
  { h with
    next := max h.next bound
    fresh := fun addr past => h.fresh addr (le_trans (le_max_left _ _) past) }

def setBody (h : Heap im) (addr : Addr) (body : Body im) : Heap im :=
  h.update addr fun cell => { cell with body := body }

/-- `Vec::push` on an array. -/
def push (h : Heap im) (addr : Addr) (v : RubyValue) : Heap im :=
  h.setBody addr (.array (h.elems addr ++ [v]))

/-- `set_builtin_payload`. -/
def setPayload (h : Heap im) (addr : Addr) (v : RubyValue) : Heap im :=
  h.setBody addr (.object { h.object addr with payload := some v })

end Heap

def assign (ivars : Fields) (name : String) (v : RubyValue) : Fields :=
  ivars.map fun pair => if pair.1 = name then (name, v) else pair

theorem assign_names (ivars : Fields) (name : String) (v : RubyValue) :
    (assign ivars name v).map (·.1) = ivars.map (·.1) := by
  unfold assign
  rw [List.map_map]
  refine List.map_congr_left fun pair _ => ?_
  simp only [Function.comp_apply]
  split <;> simp_all

/-- `ivar_set_named`, for a name that is there. -/
def Heap.setIvar (h : Heap im) (addr : Addr) (name : String) (v : RubyValue) : Heap im :=
  h.setBody addr (.object { h.object addr with
    ivars := assign (h.object addr).ivars name v
    distinct := by
      rw [assign_names]
      exact (h.object addr).distinct })

def crossIdentity : RubyValue → Option RubyValue
  | .str s => some (.str s)
  | .array addr => some (.array addr)
  | .hash addr => some (.hash addr)
  | .object addr => some (.object addr)
  | _ => none

/-- `CrossState::remember`. -/
def remember (src built : RubyValue) : Cross im Unit := fun st =>
  .ok () { st with
    built :=
      match crossIdentity src with
      | some id => st.built ++ [(id, built)]
      | none => st.built
    sources := if st.mode = .move then st.sources ++ [src] else st.sources }

/-- Put a new cell on the heap: neither frozen nor moved unless it says so. -/
def allocate (body : Body im) (frozen : Bool) : Cross im Addr := fun st =>
  .ok (st.heap.alloc ⟨body, frozen, false, []⟩).1
    { st with heap := (st.heap.alloc ⟨body, frozen, false, []⟩).2 }

def change (f : Heap im → Heap im) : Cross im Unit := fun st =>
  .ok () { st with heap := f st.heap }

def hashSet (rt : Runtime im) (dst : Addr) (key value : RubyValue) : Cross im Unit := fun st =>
  match hashSetUnder (rt.worldAt st.heap) ⟨st.heap.next, st.parked⟩ (st.heap.table dst) key
    value with
  | .done (data, run) => .ok () { st with
      heap := (st.heap.setBody dst (.hash data)).reserve run.next
      parked := run.parked }
  | _ => .error .overflow st

section Arms

variable (rt : Runtime im) (cross : RubyValue → Cross im RubyValue)

def crossElems (dst : Addr) : List RubyValue → Cross im Unit
  | [] => pure ()
  | e :: es => do
    let crossed ← cross e
    change fun h => h.push dst crossed
    crossElems dst es

def crossPairs (dst : Addr) : Pairs → Cross im Unit
  | [] => pure ()
  | (key, value) :: rest => do
    let crossedKey ← cross key
    let crossedValue ← cross value
    hashSet rt dst crossedKey crossedValue
    crossPairs dst rest

def crossIvars (dst : Addr) : Fields → Cross im Unit
  | [] => pure ()
  | (name, value) :: rest => do
    let crossed ← cross value
    change fun h => h.setIvar dst name crossed
    crossIvars dst rest

def crossOption : Option RubyValue → Cross im (Option RubyValue)
  | some v => do
    let crossed ← cross v
    pure (some crossed)
  | none => pure none

/-- The `Array` arm. -/
def crossArray (v : RubyValue) (elems : List RubyValue) : Cross im RubyValue := do
  let dst ← allocate (.array []) false
  remember v (.array dst)
  crossElems cross dst elems
  pure (.array dst)

/-- The `Hash` arm. -/
def crossHash (v : RubyValue) (src : RHashData im) : Cross im RubyValue := do
  let dst ← allocate (.hash (RHashData.new .nil)) false
  remember v (.hash dst)
  change fun h =>
    h.setBody dst (.hash { h.table dst with compareByIdentity := src.compareByIdentity })
  crossPairs rt cross dst (hashPairsSnapshot src)
  let default ← cross src.default
  let proc ← crossOption cross src.defaultProc
  change fun h =>
    h.setBody dst (.hash { h.table dst with default := default, defaultProc := proc })
  pure (.hash dst)

def crossPayload (dst : Addr) : Option RubyValue → Cross im Unit
  | some payload => do
    let crossed ← cross payload
    change fun h => h.setPayload dst crossed
  | none => pure ()

/-- `dup_object`. That of a converter is a new one, which has met no error yet. -/
def dupObject (src : ObjectData) : ObjectData :=
  { src with listed := src.listed.map (·.map fun _ => .nil) }

/-- The `Object` arm, for an object that may cross. -/
def crossObject (v : RubyValue) (src : ObjectData) (frozen : Bool) : Cross im RubyValue := do
  let dst ← allocate (.object (dupObject src)) frozen
  remember v (.object dst)
  crossIvars cross dst src.ivars
  crossPayload cross dst src.payload
  pure (.object dst)

/-- The `Range` arm. -/
def crossRange (src : Option RubyValue × Option RubyValue × Bool) : Cross im RubyValue := do
  let start ← crossOption cross src.1
  let finish ← crossOption cross src.2.1
  let dst ← allocate (.range start finish src.2.2) false
  pure (.range dst)

def procRefused : CrossMode → CrossFail
  | .copy => .refused "TypeError" "allocator undefined for Proc"
  | .move => .refused "Ractor::Error" "can not move Proc object."

def kindRefused (h : Heap im) (v : RubyValue) : CrossMode → CrossFail
  | .copy => .refused "Ractor::Error" (rt.display h v ++ " can't cross a Ractor boundary")
  | .move => .refused "Ractor::Error" ("can not move " ++ rt.className h v ++ " object.")

/-- The match of `cross_build`, with itself for what a value holds. -/
def crossArm (v : RubyValue) : Cross im RubyValue := do
  let st ← get
  match v with
  | .str (.shared addr) => do
    let dst ← allocate (.str (st.heap.str addr)) false
    remember v (.str (.shared dst))
    pure (.str (.shared dst))
  | .array addr => crossArray cross v (st.heap.elems addr)
  | .hash addr => crossHash rt cross v (st.heap.table addr)
  | .range addr => crossRange cross (st.heap.range addr)
  | .object addr =>
    if st.mode = .move ∧ rt.isIoClass (st.heap.object addr).cls then
      throw (.refused "Ractor::Error" "can not move IO object.")
    else crossObject cross v (st.heap.object addr) (st.heap.frozen addr)
  | .reference .proc _ => throw (procRefused st.mode)
  | _ => throw (kindRefused rt st.heap v st.mode)

end Arms

/-- `cross_build`, to a bounded depth. -/
def crossBuild (rt : Runtime im) : Nat → RubyValue → Cross im RubyValue
  | 0, _ => throw .fuel
  | fuel + 1, v => do
    let st ← get
    if shareable st.heap v then pure v
    else
      ((crossIdentity v).bind fun id => List.lookup id st.built).elim
        (crossArm rt (crossBuild rt fuel) v) pure

/-- `poison`. An object whose class word cannot change stays as it is. -/
def poison (h : Heap im) : RubyValue → Heap im
  | .str (.shared addr) => h.update addr fun cell =>
      { cell with moved := true, body := .str ⟨[], (h.str addr).enc⟩ }
  | .array addr => h.update addr fun cell => { cell with moved := true, body := .array [] }
  | .hash addr => h.update addr fun cell => { cell with
      moved := true
      body := .hash { (h.table addr).clear with default := .nil, defaultProc := none } }
  | .object addr =>
    if (h.object addr).type.retags then
      h.setBody addr (.object { h.object addr with cls := movedObjectClass })
    else h
  | _ => h

def Heap.crossDepth (h : Heap im) : Nat := 4 * h.next * (h.next + 1) + h.next + 1

def CrossState.new (mode : CrossMode) (h : Heap im) : CrossState im := ⟨mode, [], [], h, false⟩

/-- `cross_graph`: what arrives, or the refusal, and the heap there is afterwards. -/
def crossGraph (rt : Runtime im) (mode : CrossMode) (h : Heap im) (v : RubyValue) :
    Except CrossFail RubyValue × Heap im :=
  match crossBuild rt h.crossDepth v (.new mode h) with
  | .error e st => (.error e, st.heap)
  | .ok out st =>
    if st.sources.isEmpty then (.ok out, st.heap)
    else (.ok out, { st.sources.foldl poison st.heap with anyMoved := true })

end Zeo.Ractor
