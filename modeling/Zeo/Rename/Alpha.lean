import Zeo.Rename.Walker

/-!
# Isolation as a renaming of locals

The walker is the renamer of a tree of scopes, so a file's resolution is kept exactly when the
places that touch a parameter's default are treated like what they mean. The default of a
`define_method` parameter is not visited, and a default that names a local of the file is left
behind when a later parameter has the same name.
-/

namespace Zeo.Rename

open Zeo.Lib.Scoping Zeo.Lib.ScopeTree Text

variable (f : String → String)

theorem reads_map (names : List String) (sites : List String) :
    reads (sites.map (pick f names)) = (reads sites).rename f names := by
  induction sites with
  | nil => rfl
  | cons x sites ih => exact congrArg (seq _) ih

theorem assigns_toList_map (w : Walker) (site : Option String) :
    assigns (site.map w.site).toList = (assigns site.toList).rename w.mangled w.names := by
  cases site <;> rfl

theorem params_foldr (names : List String) (rest : Head String) :
    (names.foldr Head.param rest).params = names ++ rest.params := by
  induction names with
  | nil => rfl
  | cons x names ih => exact congrArg (List.cons x) ih

theorem rename_foldr_param (names sites : List String) (rest : Head String) :
    (sites.foldr Head.param rest).rename f names =
      sites.foldr Head.param (rest.rename f names) := by
  induction sites with
  | nil => rfl
  | cons x sites ih => exact congrArg (Head.param x) ih

theorem params_textParams (walked : Bool) (params : List Hir) :
    (textParams walked params).params = boundNames params := by
  induction params with
  | nil => rfl
  | cons p params ih =>
    have here : (textParam walked (textParams walked params) p).params =
        boundNames [p] ++ (textParams walked params).params := by
      cases p with
      | destructure slot names =>
        exact (congrArg (List.cons slot) (params_foldr names _)).trans (by simp [boundNames])
      | _ => rfl
    rw [textParams, here, ih]
    simp [boundNames]

theorem rename_textParams_false (names : List String) (params : List Hir) :
    (textParams false params).rename f names = textParams false params := by
  induction params with
  | nil => rfl
  | cons p params ih =>
    cases p with
    | param name => exact congrArg (Head.param name) ih
    | destructure slot sites =>
      exact congrArg (Head.param slot)
        ((rename_foldr_param f names sites _).trans (by rw [ih]))
    | optional name default => exact congrArg (fun rest => Head.param name (.part _ _ rest)) ih
    | _ => exact ih

mutual
theorem text_visit : ∀ (t : Hir) (w : Walker),
    text (visit w t) = (text t).rename w.mangled w.names
  | .localRead _, _ | .classDef _ _, _ | .defMethod true _ _ _, _ | .targetLocal _, _
  | .patternBind _, _ | .param _, _ | .destructure _ _, _ => rfl
  | .localWrite _ value, w => congrArg (seq _) (text_visit value w)
  | .descend _ children, w => textAll_visitAll children w
  | .call receiver _ args kwargs block blockArg, w => by
    rw [visit, text, text, textOpt_visitOpt, textAll_visitAll, textAll_visitAll, textOpt_visitOpt,
      textOpt_visitOpt]
    rfl
  | .block _ params implicitBlockLocals body, w => by
    rw [visit, text, text, rename, params_textParams, textParams_visitAll, rename,
      textAll_visitAll]
    exact congrArg (fun own => scope _ (.seq _ own))
      (reads_map w.mangled (w.suspendParams params).names implicitBlockLocals)
  | .defMethod false _ params body, w => by
    rw [visit, text, text, rename, params_textParams, rename_textParams_false,
      textAll_visitAll]
    rfl
  | .forIn target iterable body, w => by
    rw [visit, text, text, text_visit, text_visit, textAll_visitAll]
    rfl
  | .multiWrite targets value, w | .matchPattern _ subject pattern, w => by
    rw [visit, text, text, text_visit, text_visit]
    rfl
  | .raise args cause, w => by
    rw [visit, text, text, textAll_visitAll, textOpt_visitOpt]
    rfl
  | .caseIn subject arms elseBody, w => by
    rw [visit, text, text, text_visit, textAll_visitAll, textAll_visitAll]
    rfl
  | .beginBody body rescues elseBody ensureBody, w => by
    rw [visit, text, text, textAll_visitAll, textAll_visitAll, textAll_visitAll, textAll_visitAll]
    rfl
  | .patternArm pattern guarded body, w => by
    rw [visit, text, text, text_visit, textOpt_visitOpt, textAll_visitAll]
    rfl
  | .rescueClause splats binding body, w | .patternArray pre _ post, w => by
    rw [visit, text, text, textAll_visitAll, textAll_visitAll, assigns_toList_map]
    rfl
  | .targetCall writeCall _, w => congrArg (seq _) (text_visit writeCall w)
  | .group before splat after, w => by
    rw [visit, text, text, textAll_visitAll, textOpt_visitOpt, textAll_visitAll]
    rfl
  | .patternCapture inner _, w => by
    rw [visit, text, text, text_visit]
    rfl
  | .patternFind _ mid _, w => by
    rw [visit, text, text, textAll_visitAll, assigns_toList_map, assigns_toList_map]
    rfl
  | .patternHash pairs _, w => by
    rw [visit, text, text, textAll_visitAll, assigns_toList_map]
    rfl
  | .patternPair key none, w => by
    rw [visit, text, rename, pick]
    by_cases active : key ∈ w.names
    · rw [if_pos active, if_pos active]
      rfl
    · rw [if_neg active, if_neg active]
      rfl
  | .patternPair _ (some pattern), w => text_visit pattern w
  | .optional _ default, w => text_visit default w

theorem textAll_visitAll : ∀ (nodes : List Hir) (w : Walker),
    textAll (visitAll w nodes) = (textAll nodes).rename w.mangled w.names
  | [], _ => rfl
  | node :: nodes, w => by
    rw [visitAll, textAll, textAll, text_visit, textAll_visitAll]
    rfl

theorem textOpt_visitOpt : ∀ (node : Option Hir) (w : Walker),
    textOpt (visitOpt w node) = (textOpt node).rename w.mangled w.names
  | none, _ => rfl
  | some node, w => text_visit node w

theorem textParams_visitAll : ∀ (params : List Hir) (w : Walker),
    textParams true (visitAll w params) = (textParams true params).rename w.mangled w.names
  | [], _ => rfl
  | p :: params, w => by
    have later := textParams_visitAll params w
    cases p with
    | param name => exact congrArg (Head.param name) later
    | destructure slot names =>
      refine congrArg (Head.param slot) ?_
      rw [later]
      exact (rename_foldr_param w.mangled w.names names _).symm
    | optional name default =>
      rw [visitAll, visit, textParams, textParams, textParam, textParam, text_visit default w,
        later]
      rfl
    | patternPair key pattern =>
      refine Eq.trans ?_ later
      cases pattern with
      | some pattern => rfl
      | none =>
        rw [visitAll, visit, textParams]
        split <;> rfl
    | defMethod isDef _ _ _ => cases isDef <;> exact later
    | _ => exact later
end

theorem declared_assigns (names : List String) : (assigns names).declared ⊆ names := by
  induction names with
  | nil => exact List.nil_subset _
  | cons x names ih => exact List.cons_subset_cons x ih

theorem append_subset_both {a a' b b' : List String} (left : a ⊆ a') (right : b ⊆ b') :
    a ++ b ⊆ a' ++ b' :=
  List.append_subset_of_subset_of_subset (List.subset_append_of_subset_left b' left)
    (List.subset_append_of_subset_right a' right)

mutual
/-- The first pass collects every name a tree assigns in the scope it stands in. -/
theorem declared_subset_collect : ∀ t : Hir, (text t).declared ⊆ collect t
  | .localRead _ | .block _ _ _ _ | .classDef _ _ | .defMethod true _ _ _
  | .defMethod false _ _ _ | .param _ | .destructure _ _ => List.nil_subset _
  | .localWrite name value => List.cons_subset_cons name (declared_subset_collect value)
  | .descend _ children => declared_subset_collectAll children
  | .call receiver _ args kwargs block blockArg =>
    append_subset_both (declared_subset_collectOpt receiver)
      (append_subset_both (declared_subset_collectAll args)
        (append_subset_both (declared_subset_collectAll kwargs)
          (append_subset_both (declared_subset_collectOpt block)
            (declared_subset_collectOpt blockArg))))
  | .forIn target iterable body =>
    append_subset_both (declared_subset_collect target)
      (append_subset_both (declared_subset_collect iterable) (declared_subset_collectAll body))
  | .multiWrite targets value =>
    append_subset_both (declared_subset_collect targets) (declared_subset_collect value)
  | .raise args cause =>
    append_subset_both (declared_subset_collectAll args) (declared_subset_collectOpt cause)
  | .caseIn subject arms elseBody =>
    append_subset_both (declared_subset_collect subject)
      (append_subset_both (declared_subset_collectAll arms) (declared_subset_collectAll elseBody))
  | .matchPattern _ subject pattern =>
    append_subset_both (declared_subset_collect subject) (declared_subset_collect pattern)
  | .beginBody body rescues elseBody ensureBody =>
    append_subset_both (declared_subset_collectAll body)
      (append_subset_both (declared_subset_collectAll rescues)
        (append_subset_both (declared_subset_collectAll elseBody)
          (declared_subset_collectAll ensureBody)))
  | .patternArm pattern guarded body =>
    append_subset_both (declared_subset_collect pattern)
      (append_subset_both (declared_subset_collectOpt guarded) (declared_subset_collectAll body))
  | .rescueClause splats _ body =>
    append_subset_both (declared_subset_collectAll splats)
      (append_subset_both (declared_assigns _) (declared_subset_collectAll body))
  | .targetLocal _ | .patternBind _ | .patternPair _ none => List.Subset.refl _
  | .targetCall writeCall tmpName =>
    List.cons_subset_cons tmpName (declared_subset_collect writeCall)
  | .group before splat after =>
    append_subset_both (declared_subset_collectAll before)
      (append_subset_both (declared_subset_collectOpt splat) (declared_subset_collectAll after))
  | .patternCapture inner name =>
    append_subset_both (declared_subset_collect inner) (List.Subset.refl [name])
  | .patternArray pre rest post => by
    -- The walker visits the patterns after the splat before its name.
    have names : (text (.patternArray pre rest post)).declared ⊆
        collectAll pre ++ (rest.toList ++ collectAll post) :=
      append_subset_both (declared_subset_collectAll pre)
        (append_subset_both (declared_assigns _) (declared_subset_collectAll post))
    intro x declared
    have listed := names declared
    rw [List.mem_append, List.mem_append] at listed
    rw [collect, List.mem_append, List.mem_append]
    exact listed.imp_right .symm
  | .patternFind _ mid _ =>
    append_subset_both (declared_assigns _)
      (append_subset_both (declared_subset_collectAll mid) (declared_assigns _))
  | .patternHash pairs _ =>
    append_subset_both (declared_subset_collectAll pairs) (declared_assigns _)
  | .patternPair _ (some pattern) => declared_subset_collect pattern
  | .optional _ default => declared_subset_collect default

theorem declared_subset_collectAll :
    ∀ nodes : List Hir, (textAll nodes).declared ⊆ collectAll nodes
  | [] => List.nil_subset _
  | node :: nodes =>
    append_subset_both (declared_subset_collect node) (declared_subset_collectAll nodes)

theorem declared_subset_collectOpt :
    ∀ node : Option Hir, (textOpt node).declared ⊆ collectOpt node
  | none => List.nil_subset _
  | some node => declared_subset_collect node
end

theorem fileText_isolateLocals (roots : List Hir) (mark : String) :
    fileText (isolateLocals roots mark) =
      (fileText roots).rename (fun name => mark ++ name) (collectAll roots) := by
  unfold isolateLocals
  by_cases empty : collectAll roots = []
  · rw [if_pos empty, empty, rename_nil]
  · rw [if_neg empty]
    exact textAll_visitAll roots ⟨collectAll roots, mark⟩

theorem toList_fileMark_append (fileId : Nat) (name : String) :
    (fileMark fileId ++ name).toList =
      "__f".toList ++ (Nat.toDigits 10 fileId ++ '_' :: name.toList) := by
  have digits : (toString fileId).toList = Nat.toDigits 10 fileId := by
    rw [Nat.toString_eq_ofList_toDigits, String.toList_ofList]
  unfold fileMark
  rw [String.toList_append, String.toList_append, String.toList_append, digits, List.append_assoc]
  rfl

/-- The number of a mark ends at the underscore behind it. -/
theorem takeWhile_mark (fileId : Nat) (rest : List Char) :
    (Nat.toDigits 10 fileId ++ '_' :: rest).takeWhile (fun c => decide (c ≠ '_')) =
      Nat.toDigits 10 fileId := by
  have digits : ∀ c ∈ Nat.toDigits 10 fileId, decide (c ≠ '_') = true := by
    rintro c mem
    refine decide_eq_true ?_
    rintro rfl
    exact absurd mem Nat.underscore_not_in_toDigits
  rw [List.takeWhile_append_of_pos digits, List.takeWhile_cons_of_neg (by decide),
    List.append_nil]

/-- The marks of two splices are told apart in front of any names. -/
theorem fileMark_apart {fileId fileId' : Nat} {x y : String}
    (same : fileMark fileId ++ x = fileMark fileId' ++ y) : fileId = fileId' := by
  have lists := congrArg String.toList same
  rw [toList_fileMark_append, toList_fileMark_append] at lists
  have digits := congrArg (List.takeWhile fun c => decide (c ≠ '_'))
    (List.append_cancel_left lists)
  rw [takeWhile_mark, takeWhile_mark] at digits
  have numbers := congrArg (fun digits => Nat.ofDigitChars 10 digits 0) digits
  simpa only [Nat.ofDigitChars_ten_toDigits] using numbers

theorem fileLocals_isolateFileLocals {roots : List Hir} {fileId : Nat} :
    ∀ name ∈ fileLocals (isolateFileLocals roots fileId), ∃ x, name = fileMark fileId ++ x := by
  unfold fileLocals isolateFileLocals
  rw [fileText_isolateLocals]
  exact locals_rename (declared_subset_collectAll roots)

/-- No name a file writes starts with the mark of its splice. -/
def Unmarked (roots : List Hir) (fileId : Nat) : Prop :=
  ∀ name ∈ sourceNames roots, ¬ (fileMark fileId).toList <+: name.toList

instance (roots : List Hir) (fileId : Nat) : Decidable (Unmarked roots fileId) :=
  inferInstanceAs (Decidable (∀ name ∈ sourceNames roots, _))

/-- The places of a file where a local is named, with what is known of each: whether the walker
renames it, and whether it stands in the default of a parameter. -/
def places (roots : List Hir) : List (Ref String Label) :=
  (fileText roots).places (collectAll roots)

/-- Every place that stands in a parameter's default, or means a local that a default was the first
to assign, is renamed exactly when what it means is. A local is renamed where no default of a
`define_method` is around it and no scope around it has a parameter of its name, earlier or later. -/
def DefaultsAlike (roots : List Hir) : Prop :=
  ∀ ref ∈ places roots, TouchesPart ref → Alike ref

instance (roots : List Hir) : Decidable (DefaultsAlike roots) :=
  inferInstanceAs (Decidable (∀ ref ∈ places roots, TouchesPart ref → Alike ref))

/-- Isolating a file keeps what every local of it means exactly when the defaults of its parameters
are treated like what they mean, and two splices share no local outside their blocks. -/
theorem isolateFileLocals_alpha (roots : List Hir) (fileId : Nat)
    (unmarked : Unmarked roots fileId) :
    (resolution (isolateFileLocals roots fileId) = resolution roots ↔ DefaultsAlike roots) ∧
      ∀ roots' fileId', fileId' ≠ fileId →
        List.Disjoint (fileLocals (isolateFileLocals roots fileId))
          (fileLocals (isolateFileLocals roots' fileId')) := by
  constructor
  · unfold resolution isolateFileLocals
    rw [fileText_isolateLocals]
    refine meaning_rename_iff (· ∈ sourceNames roots) ?_ ?_ _ _ ?_
    · exact fun x y _ _ same => (String.append_right_inj _).mp same
    · rintro x y _ listed rfl
      refine unmarked _ listed ?_
      rw [String.toList_append]
      exact List.prefix_append _ _
    · exact fun a member x named => List.mem_flatMap.mpr ⟨a, member, named⟩
  · intro roots' fileId' other name here there
    obtain ⟨x, marked⟩ := fileLocals_isolateFileLocals name here
    obtain ⟨y, marked'⟩ := fileLocals_isolateFileLocals name there
    exact other (fileMark_apart (marked'.symm.trans marked))

/-- `y = 5` and `Class.new { define_method(:m) { |a = y| a } }`. -/
def defaultInDefineMethod : List Hir :=
  [.localWrite "y" (.descend "IntegerLit" []),
   .call (some (.descend "ClassRef" [])) "new" [] []
     (some (.block false [] []
       [.defMethod false "m" [.optional "a" (.localRead "y")] [.localRead "a"]])) none]

/-- The default is left with the old name, which nothing declares any more. -/
theorem default_left_behind :
    Unmarked defaultInDefineMethod 0 ∧
      resolution defaultInDefineMethod = [some 0, some 1, some 0, some 1] ∧
        resolution (isolateFileLocals defaultInDefineMethod 0) =
          [some 0, some 1, none, some 1] := by decide

/-- The file `x = 1` followed by a call with the block `{ |x, a = x| x }` and a last `x`. -/
def shadowedByParam : List Hir :=
  [.localWrite "x" (.descend "IntegerLit" []),
   .call none "f" [] []
     (some (.block false [.param "x", .optional "a" (.localRead "x")] [] [.localRead "x"])) none,
   .localRead "x"]

/-- The block keeps its own `x`, the file's `x` is renamed at both its places, and a second splice
of the file has other locals. -/
theorem isolateFileLocals_alpha_shadowed :
    Unmarked shadowedByParam 0 ∧ DefaultsAlike shadowedByParam ∧
      resolution (isolateFileLocals shadowedByParam 0) = resolution shadowedByParam ∧
        fileLocals (isolateFileLocals shadowedByParam 0) = ["__f0_x"] ∧
          List.Disjoint (fileLocals (isolateFileLocals shadowedByParam 0))
            (fileLocals (isolateFileLocals shadowedByParam 1)) :=
  ⟨by decide, by decide,
    (isolateFileLocals_alpha shadowedByParam 0 (by decide)).1.mpr (by decide), by decide,
    (isolateFileLocals_alpha shadowedByParam 0 (by decide)).2 shadowedByParam 1 (by decide)⟩

end Zeo.Rename
