import Zeo.Lib.ScopeTree

/-!
# Isolation of a spliced file's locals

`require` and `load` splice a file's statements into one program scope, and `isolate_file_locals`
renames the file's locals. One walker makes two passes: the first collects every name the file
assigns, the second puts the mark of the splice in front of each of them, except for parameters
under a block, a lambda or a `define_method` body.

The tree has the nodes, assignment targets, patterns and parameters of the source in one type, with
the fields that hold names or children, in the order of the Ruby text.
-/

namespace Zeo.Rename

open Zeo.Lib.ScopeTree

/-- `HirNode`, with the parts of its nodes. -/
inductive Hir where
  | localRead (name : String)
  | localWrite (name : String) (value : Hir)
  /-- The nodes whose children are visited as they stand, those without children among them, and
  likewise the targets and patterns that hold no name of a local of their own. -/
  | descend (kind : String) (children : List Hir)
  | call (receiver : Option Hir) (name : String) (args kwargs : List Hir)
      (block blockArg : Option Hir)
  /-- `Block` and `Lambda`. -/
  | block (isLambda : Bool) (params : List Hir) (implicitBlockLocals : List String)
      (body : List Hir)
  | classDef (name : String) (body : List Hir)
  /-- `DefMethod`; a `define_method` call is not a `def`. -/
  | defMethod (isDef : Bool) (name : String) (params body : List Hir)
  /-- `For`. -/
  | forIn (target iterable : Hir) (body : List Hir)
  | multiWrite (targets value : Hir)
  /-- `Raise`, with an explicit cause. -/
  | raise (args : List Hir) (cause : Option Hir)
  | caseIn (subject : Hir) (arms elseBody : List Hir)
  /-- `MatchPredicate` and `MatchRequired`. -/
  | matchPattern (required : Bool) (subject pattern : Hir)
  /-- `Begin`. -/
  | beginBody (body rescues elseBody ensureBody : List Hir)
  /-- An arm of a `CaseIn`. -/
  | patternArm (pattern : Hir) (guarded : Option Hir) (body : List Hir)
  | rescueClause (splats : List Hir) (binding : Option String) (body : List Hir)
  /-- `MultiTarget::Local`. -/
  | targetLocal (name : String)
  /-- `MultiTarget::Call`. -/
  | targetCall (writeCall : Hir) (tmpName : String)
  /-- `MultiTargetGroup`, also as `MultiTarget::Nested`. -/
  | group (before : List Hir) (splat : Option Hir) (after : List Hir)
  | patternBind (name : String)
  | patternCapture (inner : Hir) (name : String)
  /-- `Pattern::Array`, with the name of its splat. -/
  | patternArray (pre : List Hir) (rest : Option String) (post : List Hir)
  | patternFind (preRest : Option String) (mid : List Hir) (postRest : Option String)
  /-- `Pattern::Hash`, with the name of its double splat. -/
  | patternHash (pairs : List Hir) (rest : Option String)
  /-- One pair of a `Pattern::Hash`; without a pattern it binds a local named like the key. -/
  | patternPair (key : String) (pattern : Option Hir)
  /-- A parameter without a default, or a block-local. -/
  | param (name : String)
  | destructure (slot : String) (names : List String)
  | optional (name : String) (default : Hir)

/-- `Params::bound_names`. -/
def boundNames (params : List Hir) : List String :=
  params.flatMap fun p => match p with
    | .param name => [name]
    | .destructure slot names => slot :: names
    | .optional name _ => [name]
    | _ => []

mutual
/-- `Walker::visit` while collecting: the names a tree assigns. -/
def collect : Hir → List String
  | .localRead _ => []
  | .localWrite name value => name :: collect value
  | .descend _ children => collectAll children
  | .call receiver _ args kwargs block blockArg =>
    collectOpt receiver ++ (collectAll args ++ (collectAll kwargs ++
      (collectOpt block ++ collectOpt blockArg)))
  | .block _ params _ body => collectAll params ++ collectAll body
  | .classDef _ _ => []
  | .defMethod true _ _ _ => []
  | .defMethod false _ _ body => collectAll body
  | .forIn target iterable body => collect target ++ (collect iterable ++ collectAll body)
  | .multiWrite targets value => collect targets ++ collect value
  | .raise args cause => collectAll args ++ collectOpt cause
  | .caseIn subject arms elseBody => collect subject ++ (collectAll arms ++ collectAll elseBody)
  | .matchPattern _ subject pattern => collect subject ++ collect pattern
  | .beginBody body rescues elseBody ensureBody =>
    collectAll body ++ (collectAll rescues ++ (collectAll elseBody ++ collectAll ensureBody))
  | .patternArm pattern guarded body => collect pattern ++ (collectOpt guarded ++ collectAll body)
  | .rescueClause splats binding body => collectAll splats ++ (binding.toList ++ collectAll body)
  | .targetLocal name => [name]
  | .targetCall writeCall tmpName => tmpName :: collect writeCall
  | .group before splat after => collectAll before ++ (collectOpt splat ++ collectAll after)
  | .patternBind name => [name]
  | .patternCapture inner name => collect inner ++ [name]
  | .patternArray pre rest post => collectAll pre ++ (collectAll post ++ rest.toList)
  | .patternFind preRest mid postRest => preRest.toList ++ (collectAll mid ++ postRest.toList)
  | .patternHash pairs rest => collectAll pairs ++ rest.toList
  | .patternPair key none => [key]
  | .patternPair _ (some pattern) => collect pattern
  | .param _ => []
  | .destructure _ _ => []
  | .optional _ default => collect default

def collectAll : List Hir → List String
  | [] => []
  | node :: nodes => collect node ++ collectAll nodes

def collectOpt : Option Hir → List String
  | none => []
  | some node => collect node
end

/-- `Walker`: the names still to be renamed, and what is put in front of them. -/
structure Walker where
  names : List String
  mark : String

/-- `Walker::mangled`. -/
def Walker.mangled (w : Walker) (name : String) : String := w.mark ++ name

/-- `Walker::bind` and `Walker::read`: the new name of a site. -/
def Walker.site (w : Walker) (name : String) : String := pick w.mangled w.names name

/-- `Walker::suspend_params`: the walker for the subtree under some parameters. -/
def Walker.suspendParams (w : Walker) (params : List Hir) : Walker :=
  { w with names := without w.names (boundNames params) }

mutual
/-- `Walker::visit`, with `visit_target_inner`, `visit_group` and `visit_pattern`. -/
def visit (w : Walker) : Hir → Hir
  | .localRead name => .localRead (w.site name)
  | .localWrite name value => .localWrite (w.site name) (visit w value)
  | .descend kind children => .descend kind (visitAll w children)
  | .call receiver name args kwargs block blockArg =>
    .call (visitOpt w receiver) name (visitAll w args) (visitAll w kwargs) (visitOpt w block)
      (visitOpt w blockArg)
  | .block isLambda params implicitBlockLocals body =>
    .block isLambda (visitAll (w.suspendParams params) params)
      (implicitBlockLocals.map (w.suspendParams params).site)
      (visitAll (w.suspendParams params) body)
  | .classDef name body => .classDef name body
  | .defMethod true name params body => .defMethod true name params body
  -- The defaults of the parameters are not visited here.
  | .defMethod false name params body =>
    .defMethod false name params (visitAll (w.suspendParams params) body)
  | .forIn target iterable body => .forIn (visit w target) (visit w iterable) (visitAll w body)
  | .multiWrite targets value => .multiWrite (visit w targets) (visit w value)
  | .raise args cause => .raise (visitAll w args) (visitOpt w cause)
  | .caseIn subject arms elseBody =>
    .caseIn (visit w subject) (visitAll w arms) (visitAll w elseBody)
  | .matchPattern required subject pattern =>
    .matchPattern required (visit w subject) (visit w pattern)
  | .beginBody body rescues elseBody ensureBody =>
    .beginBody (visitAll w body) (visitAll w rescues) (visitAll w elseBody) (visitAll w ensureBody)
  | .patternArm pattern guarded body =>
    .patternArm (visit w pattern) (visitOpt w guarded) (visitAll w body)
  | .rescueClause splats binding body =>
    .rescueClause (visitAll w splats) (binding.map w.site) (visitAll w body)
  | .targetLocal name => .targetLocal (w.site name)
  | .targetCall writeCall tmpName => .targetCall (visit w writeCall) (w.site tmpName)
  | .group before splat after =>
    .group (visitAll w before) (visitOpt w splat) (visitAll w after)
  | .patternBind name => .patternBind (w.site name)
  | .patternCapture inner name => .patternCapture (visit w inner) (w.site name)
  | .patternArray pre rest post =>
    .patternArray (visitAll w pre) (rest.map w.site) (visitAll w post)
  | .patternFind preRest mid postRest =>
    .patternFind (preRest.map w.site) (visitAll w mid) (postRest.map w.site)
  | .patternHash pairs rest => .patternHash (visitAll w pairs) (rest.map w.site)
  -- The key stays: the shorthand becomes a pair with a pattern that binds the new name.
  | .patternPair key none =>
    if key ∈ w.names then .patternPair key (some (.patternBind (w.mangled key)))
    else .patternPair key none
  | .patternPair key (some pattern) => .patternPair key (some (visit w pattern))
  | .param name => .param name
  | .destructure slot names => .destructure slot names
  | .optional name default => .optional name (visit w default)

/-- `Walker::visit_all`. -/
def visitAll (w : Walker) : List Hir → List Hir
  | [] => []
  | node :: nodes => visit w node :: visitAll w nodes

/-- `Walker::visit_opt`. -/
def visitOpt (w : Walker) : Option Hir → Option Hir
  | none => none
  | some node => some (visit w node)
end

/-- `isolate_locals`: collect the names, then rename them; a file that assigns none is left
alone. -/
def isolateLocals (roots : List Hir) (mark : String) : List Hir :=
  if collectAll roots = [] then roots else visitAll ⟨collectAll roots, mark⟩ roots

def fileMark (fileId : Nat) : String := "__f" ++ toString fileId ++ "_"

def isolateFileLocals (roots : List Hir) (fileId : Nat) : List Hir :=
  isolateLocals roots (fileMark fileId)

def assigns (names : List String) : Text String :=
  names.foldr (fun name rest => .seq (.bind name) rest) .skip

def reads (names : List String) : Text String :=
  names.foldr (fun name rest => .seq (.use name) rest) .skip

mutual
/-- The local names of a tree as Ruby scopes them, in the order of the text. A block, a lambda and
a `define_method` body each open a scope inside the one they stand in; a class body and a `def` see
no local of it. The flag of a part says whether the walker looks into it. -/
def text : Hir → Text String
  | .localRead name => .use name
  | .localWrite name value => .seq (.bind name) (text value)
  | .descend _ children => textAll children
  | .call receiver _ args kwargs block blockArg =>
    .seq (textOpt receiver) (.seq (textAll args) (.seq (textAll kwargs)
      (.seq (textOpt block) (textOpt blockArg))))
  -- The prelude that resets the implicit block-locals names locals of the block.
  | .block _ params implicitBlockLocals body =>
    .scope (textParams true params) (.seq (textAll body) (reads implicitBlockLocals))
  | .classDef _ _ => .skip
  | .defMethod true _ _ _ => .skip
  | .defMethod false _ params body => .scope (textParams false params) (textAll body)
  | .forIn target iterable body =>
    .seq (text target) (.seq (text iterable) (textAll body))
  | .multiWrite targets value => .seq (text targets) (text value)
  | .raise args cause => .seq (textAll args) (textOpt cause)
  | .caseIn subject arms elseBody =>
    .seq (text subject) (.seq (textAll arms) (textAll elseBody))
  | .matchPattern _ subject pattern => .seq (text subject) (text pattern)
  | .beginBody body rescues elseBody ensureBody =>
    .seq (textAll body) (.seq (textAll rescues) (.seq (textAll elseBody)
      (textAll ensureBody)))
  | .patternArm pattern guarded body =>
    .seq (text pattern) (.seq (textOpt guarded) (textAll body))
  | .rescueClause splats binding body =>
    .seq (textAll splats) (.seq (assigns binding.toList) (textAll body))
  | .targetLocal name => .bind name
  | .targetCall writeCall tmpName => .seq (.bind tmpName) (text writeCall)
  | .group before splat after =>
    .seq (textAll before) (.seq (textOpt splat) (textAll after))
  | .patternBind name => .bind name
  | .patternCapture inner name => .seq (text inner) (.bind name)
  | .patternArray pre rest post =>
    .seq (textAll pre) (.seq (assigns rest.toList) (textAll post))
  | .patternFind preRest mid postRest =>
    .seq (assigns preRest.toList) (.seq (textAll mid) (assigns postRest.toList))
  | .patternHash pairs rest => .seq (textAll pairs) (assigns rest.toList)
  | .patternPair key none => .bind key
  | .patternPair _ (some pattern) => text pattern
  | .param _ => .skip
  | .destructure _ _ => .skip
  | .optional _ default => text default

def textAll : List Hir → Text String
  | [] => .skip
  | node :: nodes => .seq (text node) (textAll nodes)

def textOpt : Option Hir → Text String
  | none => .skip
  | some node => text node

/-- Parameters: each is declared before its default is read, and after those before it. -/
def textParams (walked : Bool) : List Hir → Head String
  | [] => .done
  | p :: params => textParam walked (textParams walked params) p

def textParam (walked : Bool) (rest : Head String) : Hir → Head String
  | .param name => .param name rest
  | .destructure slot names => .param slot (names.foldr .param rest)
  | .optional name default => .param name (.part walked (text default) rest)
  | _ => rest
end

def fileText (roots : List Hir) : Text String := textAll roots

/-- For each place of a file where a local is named, the place that declared it. -/
def resolution (roots : List Hir) : List (Option Nat) := (fileText roots).meaning

def fileLocals (roots : List Hir) : List String := (fileText roots).locals

def sourceNames (roots : List Hir) : List String :=
  (fileText roots).walk.flatMap fun a => a.names

end Zeo.Rename
