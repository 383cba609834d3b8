import Mathlib.Data.List.Basic

/-!
# Capture analysis of escaping blocks

A local that an escaping block shares with the scope around it lives in a cell.
`collect_escaping_captures` decides for a whole scope, name by name, which locals get one. The walk
records, for every name, the latest position at which an escaping construct touches it, the earliest
plain assignment outside all of them, and whether a nested construct touches it.

The tree has the nodes, assignment targets and patterns of the source in one type. The position at
which a name stands, and where the body of a block or lambda starts, is kept beside a node's span.
-/

namespace Zeo.Capture

structure Pos where
  file : Nat
  start : Nat
deriving DecidableEq, Repr

/-- The three nodes that call. -/
inductive CallKind where
  /-- `Call`, with the answers of `is_inline_block_fast_path` and `is_spliced_block_body`. -/
  | call (isInline isSpliced : Bool)
  /-- `New`, which has no receiver and no block argument. -/
  | new
  /-- `SuperCall`, which has no receiver; a bare one forwards the parameters. -/
  | superCall (zsuper : Bool)
deriving DecidableEq, Repr

/-- `HirNode`, with the parts of its nodes. -/
inductive Hir where
  | localRead (span : Option Pos) (name : String)
  /-- `LocalWrite`, and where the name stands. -/
  | localWrite (span : Option Pos) (stands : Pos) (name : String) (value : Hir)
  /-- The nodes that only pass the walk on to their children, and those without any. `CaseIn` and
  `Begin` are among them, with their arms and clauses as children, and so are `MatchPredicate` and
  `MatchRequired`, with the pattern as an arm that has no body. -/
  | descend (span : Option Pos) (kind : String) (children : List Hir)
  /-- `Block`: where its body opens, the names its parameters bind, its `implicit_block_locals` and
  `block_locals`, its defaults and its body. -/
  | block (span : Option Pos) (opens : Pos) (bound own : List String) (defaults body : List Hir)
  /-- `DefMethod`, and `Lambda`, which is no `def` just as a `define_method` call is none. -/
  | defMethod (span : Option Pos) (isDef : Bool) (opens : Pos) (bound : List String)
      (defaults body : List Hir)
  | classDef (span : Option Pos) (body : List Hir)
  | call (span : Option Pos) (kind : CallKind) (receiver : Option Hir) (args kwargs : List Hir)
      (block blockArg : Option Hir)
  /-- `For`, and `MultiWrite`, which has no body: the targets, and the iterable or the value. -/
  | forIn (span : Option Pos) (target iterable : Hir) (body : List Hir)
  /-- An arm of a `CaseIn`: the names its pattern binds, and the pattern's nodes. -/
  | patternArm (names : List (String × Pos)) (nodes : List Hir) (guarded : Option Hir)
      (body : List Hir)
  | rescueClause (splats : List Hir) (binding : Option (String × Pos)) (body : List Hir)
  /-- `MultiTarget::Local`. -/
  | targetLocal (name : String) (stands : Pos)
  /-- `MultiTarget::Call`. -/
  | targetCall (writeCall : Hir) (tmpName : String) (stands : Pos)
  /-- `MultiTargetGroup`, also as `MultiTarget::Nested`. -/
  | group (before : List Hir) (splat : Option Hir) (after : List Hir)

def startOf : Hir → Option Pos
  | .localRead span _ => span
  | .localWrite span _ _ _ => span
  | .descend span _ _ => span
  | .block span _ _ _ _ _ => span
  | .defMethod span _ _ _ _ _ => span
  | .classDef span _ => span
  | .call span _ _ _ _ _ _ => span
  | .forIn span _ _ _ => span
  | .patternArm _ _ _ _ => none
  | .rescueClause _ _ _ => none
  | .targetLocal _ _ => none
  | .targetCall _ _ _ => none
  | .group _ _ _ => none

/-- `block_body_pos`: the first statement with a span, or else the block's own. -/
def blockBodyPos (span : Option Pos) (body : List Hir) : Option Pos :=
  (body.findSome? startOf).or span

structure Ctx where
  start : Pos
  nested : Bool
deriving DecidableEq, Repr

def deepen (ctx : Option Ctx) (enter : Option Pos) : Option Ctx :=
  match ctx with
  | some c => some ⟨c.start, true⟩
  | none => enter.map fun p => ⟨p, false⟩

/-- `note_touch`: the latest start, where another file's takes over. -/
def laterTouch (old : Option Pos) (p : Pos) : Pos :=
  match old with
  | none => p
  | some e => if p.file ≠ e.file ∨ e.start < p.start then p else e

/-- `note_first_assign`: the earliest assignment in the file of the first one. -/
def earlierAssign (old : Option Pos) (p : Pos) : Pos :=
  match old with
  | none => p
  | some e => if p.file = e.file ∧ p.start < e.start then p else e

inductive Event where
  /-- An escaping construct reads a name or assigns it in the plain form. -/
  | touch (name : String) (ctx : Ctx)
  /-- An escaping construct assigns a name in another form. -/
  | mention (name : String)
  /-- A name is assigned outside every escaping construct, at a known position. -/
  | assign (name : String) (p : Pos)
  /-- An escaping construct contains a bare `super`. -/
  | zsuper
deriving DecidableEq, Repr

structure Captures where
  locals : List String
  /-- One of them has a bare `super`. -/
  zsuperForwards : Bool
  localsAt : String → Option Pos
  nestedTouch : List String
  /-- The earliest plain assignment of a name outside the constructs. -/
  outerAssignedAt : String → Option Pos

/-- `Captures::default`. -/
def Captures.default : Captures := ⟨[], false, fun _ => none, [], fun _ => none⟩

def Captures.record (caps : Captures) : Event → Captures
  | .touch name ctx =>
    { caps with
      locals := caps.locals.insert name
      localsAt := Function.update caps.localsAt name
        (some (laterTouch (caps.localsAt name) ctx.start))
      nestedTouch := if ctx.nested then caps.nestedTouch.insert name else caps.nestedTouch }
  | .mention name => { caps with locals := caps.locals.insert name }
  | .assign name p =>
    { caps with
      outerAssignedAt := Function.update caps.outerAssignedAt name
        (some (earlierAssign (caps.outerAssignedAt name) p)) }
  | .zsuper => { caps with zsuperForwards := true }

def Captures.recordAll (caps : Captures) (events : List Event) : Captures :=
  events.foldl Captures.record caps

def onRead (ctx : Option Ctx) (exclusions : List String) (name : String) : List Event :=
  match ctx with
  | some c => if name ∈ exclusions then [] else [.touch name c]
  | none => []

def onWrite (ctx : Option Ctx) (exclusions : List String) (span : Option Pos) (name : String) :
    List Event :=
  match ctx with
  | some c => if name ∈ exclusions then [] else [.touch name c]
  | none => (span.map (Event.assign name)).toList

/-- A target of a multiple assignment or a `for`; outside the constructs its position is that of
the statement. -/
def onTarget (ctx : Option Ctx) (exclusions : List String) (outerAt : Option Pos)
    (name : String) : List Event :=
  match ctx with
  | some _ => if name ∈ exclusions then [] else [.mention name]
  | none => (outerAt.map (Event.assign name)).toList

/-- A name that a pattern or a rescue clause binds, or the temporary of a target. -/
def onBind (ctx : Option Ctx) (exclusions : List String) (name : String) : List Event :=
  match ctx with
  | some _ => if name ∈ exclusions then [] else [.mention name]
  | none => []

/-- A bare `super`. -/
def onSuper (ctx : Option Ctx) : CallKind → List Event
  | .superCall true => if ctx.isSome then [.zsuper] else []
  | _ => []

inductive Entry where
  /-- A fused loop: the context of the call. -/
  | inline
  /-- An escaping block that is compared by the start of its body. -/
  | bodyStart
  /-- An escaping block that is compared by its own start. -/
  | ownStart
deriving DecidableEq, Repr

def CallKind.entry : CallKind → Entry
  | .call isInline _ => if isInline then .inline else .bodyStart
  | .new => .ownStart
  | .superCall _ => .bodyStart

/-- The block of a call that is spliced into the scope around it. -/
def CallKind.isSpliced : CallKind → Bool
  | .call _ isSpliced => isSpliced
  | _ => false

def Entry.context (entry : Entry) (ctx : Option Ctx) (span : Option Pos) (body : List Hir) :
    Option Ctx :=
  match entry with
  | .inline => ctx
  | .bodyStart => deepen ctx (blockBodyPos span body)
  | .ownStart => deepen ctx span

mutual
/-- `walk`: what it notes down, in its order. -/
def walk (ctx : Option Ctx) (exclusions : List String) : Hir → List Event
  | .localRead _ name => onRead ctx exclusions name
  | .localWrite span _ name value =>
    onWrite ctx exclusions span name ++ walk ctx exclusions value
  | .descend _ _ children => walkAll ctx exclusions children
  -- A block is only reached through the call that owns it.
  | .block _ _ _ _ _ _ => []
  | .defMethod span isDef _ bound defaults body =>
    if ctx.isSome || !isDef then
      walkAll (deepen ctx span) (exclusions ++ bound) defaults ++
        walkAll (deepen ctx span) (exclusions ++ bound) body
    else []
  | .classDef _ _ => []
  | .call _ kind receiver args kwargs block blockArg =>
    onSuper ctx kind ++ (walkOpt ctx exclusions receiver ++ (walkAll ctx exclusions args ++
      (walkAll ctx exclusions kwargs ++ (walkOpt ctx exclusions blockArg ++
        walkBlock ctx exclusions kind.entry block))))
  | .forIn span target iterable body =>
    walkMultiTarget ctx exclusions span target ++ (walk ctx exclusions iterable ++
      walkAll ctx exclusions body)
  | .patternArm names nodes guarded body =>
    (names.flatMap fun n => onBind ctx exclusions n.1) ++ (walkAll ctx exclusions nodes ++
      (walkOpt ctx exclusions guarded ++ walkAll ctx exclusions body))
  | .rescueClause splats binding body =>
    walkAll ctx exclusions splats ++
      ((binding.toList.flatMap fun n => onBind ctx exclusions n.1) ++
        walkAll ctx exclusions body)
  | .targetLocal _ _ => []
  | .targetCall _ _ _ => []
  | .group _ _ _ => []

def walkAll (ctx : Option Ctx) (exclusions : List String) : List Hir → List Event
  | [] => []
  | node :: nodes => walk ctx exclusions node ++ walkAll ctx exclusions nodes

def walkOpt (ctx : Option Ctx) (exclusions : List String) : Option Hir → List Event
  | none => []
  | some node => walk ctx exclusions node

def walkBlock (ctx : Option Ctx) (exclusions : List String) (entry : Entry) :
    Option Hir → List Event
  | some (.block span _ bound _ defaults body) =>
    walkAll (entry.context ctx span body) (exclusions ++ bound) defaults ++
      walkAll (entry.context ctx span body) (exclusions ++ bound) body
  | _ => []

/-- `walk_multi_target` and `walk_multi_target_group`. -/
def walkMultiTarget (ctx : Option Ctx) (exclusions : List String) (outerAt : Option Pos) :
    Hir → List Event
  | .targetLocal name _ => onTarget ctx exclusions outerAt name
  | .targetCall writeCall tmpName _ =>
    onBind ctx exclusions tmpName ++ walk ctx exclusions writeCall
  | .group before splat after =>
    walkMultiTargets ctx exclusions outerAt before ++ (walkMultiTargets ctx exclusions outerAt after ++
      walkMultiTargetOpt ctx exclusions outerAt splat)
  | _ => []

def walkMultiTargets (ctx : Option Ctx) (exclusions : List String) (outerAt : Option Pos) :
    List Hir → List Event
  | [] => []
  | target :: targets =>
    walkMultiTarget ctx exclusions outerAt target ++ walkMultiTargets ctx exclusions outerAt targets

def walkMultiTargetOpt (ctx : Option Ctx) (exclusions : List String) (outerAt : Option Pos) :
    Option Hir → List Event
  | none => []
  | some target => walkMultiTarget ctx exclusions outerAt target
end

mutual
/-- `collect_locals`: the names a node assigns outside escaping blocks. -/
def collectLocals : Hir → List String
  | .localRead _ _ => []
  | .localWrite _ _ name value => name :: collectLocals value
  | .descend _ _ children => collectLocalsAll children
  | .block _ _ _ _ _ body => collectLocalsAll body
  | .defMethod _ _ _ _ _ _ => []
  | .classDef _ _ => []
  | .call _ kind receiver args kwargs block blockArg =>
    collectLocalsOpt receiver ++ (collectLocalsAll args ++ (collectLocalsAll kwargs ++
      ((if kind.isSpliced then collectSplicedBlock block else []) ++ collectLocalsOpt blockArg)))
  | .forIn _ target iterable body =>
    collectTargets target ++ (collectLocals iterable ++ collectLocalsAll body)
  | .patternArm names nodes guarded body =>
    names.map Prod.fst ++ (collectLocalsAll nodes ++ (collectLocalsOpt guarded ++
      collectLocalsAll body))
  -- The splatted exceptions of a clause are not looked into.
  | .rescueClause _ binding body => binding.toList.map Prod.fst ++ collectLocalsAll body
  | .targetLocal _ _ => []
  | .targetCall _ _ _ => []
  | .group _ _ _ => []

def collectLocalsAll : List Hir → List String
  | [] => []
  | node :: nodes => collectLocals node ++ collectLocalsAll nodes

def collectLocalsOpt : Option Hir → List String
  | none => []
  | some node => collectLocals node

/-- `collect_spliced_block`: what a spliced body assigns except the names that are its own. -/
def collectSplicedBlock : Option Hir → List String
  | some (.block _ _ _ own _ body) => (collectLocalsAll body).filter fun n => decide (n ∉ own)
  | _ => []

/-- `for_each_local_name` and `for_each_node` of a target. -/
def collectTargets : Hir → List String
  | .targetLocal name _ => [name]
  | .targetCall writeCall tmpName _ => tmpName :: collectLocals writeCall
  | .group before splat after =>
    collectTargetsAll before ++ (collectTargetsOpt splat ++ collectTargetsAll after)
  | _ => []

def collectTargetsAll : List Hir → List String
  | [] => []
  | target :: targets => collectTargets target ++ collectTargetsAll targets

def collectTargetsOpt : Option Hir → List String
  | none => []
  | some target => collectTargets target
end

/-- A method or top-level body, or the body of a block. -/
structure Scope where
  /-- `bound_names` of its parameters. -/
  params : List String
  defaults : List Hir
  body : List Hir
  /-- What `binding_scope_names` promotes: nothing unless the scope takes a binding. -/
  promoted : List String

variable (scope : Scope)

/-- What the walk over a scope notes down. -/
def Scope.events : List Event :=
  walkAll none [] scope.defaults ++ walkAll none [] scope.body

def Scope.raw : Captures := Captures.default.recordAll scope.events

def Scope.hoisted : List String :=
  collectLocalsAll scope.body ++ (collectLocalsAll scope.defaults ++ scope.params)

/-- The order filter: whether a name that blocks mention stays shared. -/
def Scope.keeps (name : String) : Bool :=
  if name ∈ scope.params ∨ name ∈ scope.raw.nestedTouch then true
  else match scope.raw.localsAt name, scope.raw.outerAssignedAt name with
    | some touched, some assigned =>
      decide (touched.file ≠ assigned.file ∨ assigned.start ≤ touched.start)
    | _, _ => true

/-- `collect_escaping_captures`: the locals of a scope that get a cell. -/
def Scope.captures : List String :=
  (scope.raw.locals.filter fun n => decide (n ∈ scope.hoisted) && scope.keeps n) ++
    if scope.raw.zsuperForwards then scope.params else []

def Scope.isCell (name : String) : Bool :=
  decide (name ∈ scope.hoisted) && decide (name ∈ scope.captures ∨ name ∈ scope.promoted)

/-- An escaping block, lambda or `define_method` body of a scope. -/
structure Closure where
  bound : List String
  defaults : List Hir
  body : List Hir
  opens : Pos
  /-- The names that the fused loops around it own. -/
  hidden : List String

variable (c : Closure)

/-- `block_captures`: the names a block mentions that are not its parameters. The position of the
context is not looked at. -/
def Closure.captures : Captures :=
  Captures.default.recordAll (walkAll (some ⟨⟨0, 0⟩, false⟩) c.bound c.defaults ++
    walkAll (some ⟨⟨0, 0⟩, false⟩) c.bound c.body)

/-- `captured_names`: the names of the scope whose cells a block shares. -/
def Scope.capturedNames : List String :=
  c.captures.locals.filter scope.isCell

/-- What is looked for in a tree, below the names that the blocks on the way own. -/
structure Gatherer (α : Type) where
  reads : List String → String → List α
  /-- An assignment in any form, with the place where the name stands. -/
  binds : List String → String → Pos → List α
  /-- The names a block owns, of those its parameters bind and its other locals. -/
  owns : List String → List String → List String
  /-- A construct that escapes, and what is inside it. -/
  escapes : Closure → List α → List α

section

variable {α : Type} (g : Gatherer α)

mutual
/-- What is found in a node. A `def` and a class body have locals of their own. -/
def gather (env : List String) : Hir → List α
  | .localRead _ name => g.reads env name
  | .localWrite _ stands name value => g.binds env name stands ++ gather env value
  | .descend _ _ children => gatherAll env children
  | .block _ _ _ _ _ _ => []
  | .defMethod _ isDef opens bound defaults body =>
    if isDef then []
    else g.escapes ⟨bound, defaults, body, opens, env⟩
      (gatherAll (env ++ g.owns bound []) defaults ++ gatherAll (env ++ g.owns bound []) body)
  | .classDef _ _ => []
  | .call _ kind receiver args kwargs block blockArg =>
    gatherOpt env receiver ++ (gatherAll env args ++ (gatherAll env kwargs ++
      (gatherOpt env blockArg ++ gatherBlock env kind.entry block)))
  | .forIn _ target iterable body =>
    gatherTarget env target ++ (gather env iterable ++ gatherAll env body)
  | .patternArm names nodes guarded body =>
    (names.flatMap fun n => g.binds env n.1 n.2) ++ (gatherAll env nodes ++
      (gatherOpt env guarded ++ gatherAll env body))
  | .rescueClause splats binding body =>
    gatherAll env splats ++ ((binding.toList.flatMap fun n => g.binds env n.1 n.2) ++
      gatherAll env body)
  | .targetLocal _ _ => []
  | .targetCall _ _ _ => []
  | .group _ _ _ => []

def gatherAll (env : List String) : List Hir → List α
  | [] => []
  | node :: nodes => gather env node ++ gatherAll env nodes

def gatherOpt (env : List String) : Option Hir → List α
  | none => []
  | some node => gather env node

/-- A call's block escapes, or is fused into a loop of the scope. -/
def gatherBlock (env : List String) (entry : Entry) : Option Hir → List α
  | some (.block _ opens bound own defaults body) =>
    let inside := gatherAll (env ++ g.owns bound own) defaults ++
      gatherAll (env ++ g.owns bound own) body
    if entry = .inline then inside else g.escapes ⟨bound, defaults, body, opens, env⟩ inside
  | _ => []

def gatherTarget (env : List String) : Hir → List α
  | .targetLocal name stands => g.binds env name stands
  | .targetCall writeCall tmpName stands => g.binds env tmpName stands ++ gather env writeCall
  | .group before splat after =>
    gatherTargets env before ++ (gatherTargets env after ++ gatherTargetOpt env splat)
  | _ => []

def gatherTargets (env : List String) : List Hir → List α
  | [] => []
  | target :: targets => gatherTarget env target ++ gatherTargets env targets

def gatherTargetOpt (env : List String) : Option Hir → List α
  | none => []
  | some target => gatherTarget env target
end

end

/-- The assignments a scope makes itself, in every form, with the names that a fused loop owns
left out. -/
def assigning : Gatherer (String × Pos) where
  reads _ _ := []
  binds env name p := if name ∈ env then [] else [(name, p)]
  owns bound own := bound ++ own
  escapes _ _ := []

/-- The escaping constructs of a scope, those inside another one left out. -/
def escaping : Gatherer Closure where
  reads _ _ := []
  binds _ _ _ := []
  owns bound own := bound ++ own
  escapes c _ := [c]

def unbound (env : List String) (name : String) : List String := if name ∈ env then [] else [name]

/-- The locals that are named, except those that parameters of the blocks around bind. -/
def mentioning : Gatherer String where
  reads := unbound
  binds env name _ := unbound env name
  owns bound _ := bound
  escapes _ inside := inside

def Scope.closures : List Closure :=
  gatherAll escaping [] scope.defaults ++ gatherAll escaping [] scope.body

def Closure.mentions : List String :=
  gatherAll mentioning c.bound c.defaults ++ gatherAll mentioning c.bound c.body

def Pos.before (p q : Pos) : Prop := p.file = q.file ∧ p.start < q.start

instance (p q : Pos) : Decidable (p.before q) :=
  inferInstanceAs (Decidable (p.file = q.file ∧ p.start < q.start))

/-- Where the scope itself assigns a name. -/
def Scope.assigned (name : String) : List Pos :=
  ((gatherAll assigning [] scope.defaults ++ gatherAll assigning [] scope.body).filter fun a =>
    decide (a.1 = name)).map Prod.snd

/-- Ruby's rule for a name in a block: it is a parameter of the scope, or the scope assigns it
before the body of the block. -/
def Scope.sharedByRule (name : String) : Prop :=
  name ∈ scope.params ∨ ∃ p ∈ scope.assigned name, p.before c.opens

instance (scope : Scope) (c : Closure) (name : String) : Decidable (scope.sharedByRule c name) :=
  inferInstanceAs (Decidable (_ ∨ ∃ p ∈ scope.assigned name, p.before c.opens))

end Zeo.Capture
