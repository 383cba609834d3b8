import Zeo.Lib.Scoping

/-!
# Renaming over nested scopes

A text whose scopes nest, as a tree. The head of a scope holds its parameters in order, and between
them parts that are read while the parameters are being declared. A renamer leaves the names of a
scope's own parameters alone, and it does not look into a part that it does not see. Where neither
a place nor the declaration it means stands in such a part, the renamer treats the two alike.
-/

namespace Zeo.Lib.ScopeTree

open Zeo.Lib.Scoping List

mutual
inductive Text (α : Type) where
  | skip
  | bind (x : α)
  | use (x : α)
  | seq (first second : Text α)
  | scope (head : Head α) (body : Text α)

inductive Head (α : Type) where
  | done
  | param (x : α) (rest : Head α)
  /-- A part between the parameters, and whether the renamer sees it. -/
  | part (seen : Bool) (inside : Text α) (rest : Head α)
end

variable {α : Type}

def Head.params : Head α → List α
  | .done => []
  | .param x rest => x :: rest.params
  | .part _ _ rest => rest.params

mutual
def Text.walk : Text α → List (Step α)
  | .skip => []
  | .bind x => [.bind x]
  | .use x => [.use x]
  | .seq first second => first.walk ++ second.walk
  | .scope head body => .enter :: (head.walk ++ (body.walk ++ [.exit]))

def Head.walk : Head α → List (Step α)
  | .done => []
  | .param x rest => .param x :: rest.walk
  | .part _ inside rest => inside.walk ++ rest.walk
end

/-- The names a text assigns outside every scope of its own. -/
def Text.declared : Text α → List α
  | .skip => []
  | .bind x => [x]
  | .use _ => []
  | .seq first second => first.declared ++ second.declared
  | .scope _ _ => []

variable (t : Text α)

/-- A reading of a text: for each place, the place that declared its name. -/
def Text.meaning [DecidableEq α] : List (Option Nat) :=
  resolve (t.walk.map fun a => (a, ()))

/-- The names of the outermost scope once a text is read. -/
def Text.locals [DecidableEq α] : List α :=
  (after (start : Scopes α Unit) (t.walk.map fun a => (a, ()))).frames.flatten.map Decl.name

/-- What is known of a place: whether it is renamed, and whether it stands in a part of a head. -/
structure Label where
  renamed : Bool
  inPart : Bool
deriving DecidableEq, Repr

def treat (f : α → α) (a : Step α × Label) : Step α := a.1.map (if a.2.renamed then f else id)

theorem treat_kept (f : α → α) {a : Step α × Label} (kept : a.2.renamed = false) :
    treat f a = a.1 := by
  unfold treat
  rw [kept]
  cases a.1 <;> rfl

variable (ref : Ref α Label)

/-- Whether a place or what it means stands in a part of a head. -/
def TouchesPart : Prop :=
  ref.label.inPart = true ∨ ∃ d ∈ ref.decl, d.label.inPart = true

/-- A place and what it means are both renamed, or neither is. -/
def Alike : Prop := ∀ d ∈ ref.decl, ref.label.renamed = d.label.renamed

instance (ref : Ref α Label) : Decidable (TouchesPart ref) :=
  inferInstanceAs (Decidable (_ ∨ ∃ d ∈ ref.decl, _))

instance (ref : Ref α Label) : Decidable (Alike ref) :=
  inferInstanceAs (Decidable (∀ d ∈ ref.decl, _))

section Renamer

variable [DecidableEq α]

/-- The names left to rename in a scope with some parameters. -/
def without (names params : List α) : List α := names.filter fun x => decide (x ∉ params)

variable {names : List α} {params : List α}

@[simp]
theorem mem_without {x : α} :
    x ∈ without names params ↔ x ∈ names ∧ x ∉ params := by
  unfold without
  rw [mem_filter, decide_eq_true_iff]

variable (f : α → α)

def pick (names : List α) (x : α) : α := if x ∈ names then f x else x

mutual
def Text.rename (f : α → α) (names : List α) : Text α → Text α
  | .skip => .skip
  | .bind x => .bind (pick f names x)
  | .use x => .use (pick f names x)
  | .seq first second => .seq (first.rename f names) (second.rename f names)
  | .scope head body =>
    .scope (head.rename f (without names head.params)) (body.rename f (without names head.params))

def Head.rename (f : α → α) (names : List α) : Head α → Head α
  | .done => .done
  | .param x rest => .param x (rest.rename f names)
  | .part seen inside rest =>
    .part seen (if seen then inside.rename f names else inside) (rest.rename f names)
end

mutual
/-- The text as it is read, with what is known of each place. -/
def Text.steps (names : List α) (seen inPart : Bool) : Text α → List (Step α × Label)
  | .skip => []
  | .bind x => [(.bind x, ⟨seen && decide (x ∈ names), inPart⟩)]
  | .use x => [(.use x, ⟨seen && decide (x ∈ names), inPart⟩)]
  | .seq first second => first.steps names seen inPart ++ second.steps names seen inPart
  | .scope head body =>
    (.enter, ⟨false, inPart⟩) :: (head.steps (without names head.params) seen inPart ++
      (body.steps (without names head.params) seen inPart ++ [(.exit, ⟨false, inPart⟩)]))

/-- The head as it is read, with what is known of each place. -/
def Head.steps (names : List α) (seen inPart : Bool) : Head α → List (Step α × Label)
  | .done => []
  | .param x rest => (.param x, ⟨false, inPart⟩) :: rest.steps names seen inPart
  | .part sees inside rest =>
    inside.steps names (seen && sees) true ++ rest.steps names seen inPart
end

open Text

mutual
theorem Text.map_fst_steps (names : List α) (seen inPart : Bool) :
    ∀ t : Text α, (t.steps names seen inPart).map Prod.fst = t.walk
  | .skip | .bind _ | .use _ => rfl
  | .seq first second => by
    rw [steps, walk, map_append, first.map_fst_steps, second.map_fst_steps]
  | .scope head body => by
    rw [steps, walk, map_cons, map_append, map_append, head.map_fst_steps, body.map_fst_steps]
    rfl

theorem Head.map_fst_steps (names : List α) (seen inPart : Bool) :
    ∀ h : Head α, (h.steps names seen inPart).map Prod.fst = h.walk
  | .done => rfl
  | .param _ rest => by
    rw [Head.steps, Head.walk, map_cons, rest.map_fst_steps]
  | .part _ inside rest => by
    rw [Head.steps, Head.walk, map_append, inside.map_fst_steps, rest.map_fst_steps]
end

mutual
/-- Nothing unseen is renamed, and everything inside a part stands in it. -/
theorem Text.label_of_mem_steps (names : List α) (seen inPart : Bool) :
    ∀ t : Text α, ∀ a ∈ t.steps names seen inPart,
      (seen = false → a.2.renamed = false) ∧ (inPart = true → a.2.inPart = true)
  | .skip => fun _ mem => nomatch mem
  | .bind x | .use x => fun a mem => by
    rw [mem_singleton.mp mem]
    exact ⟨fun unseen => by rw [unseen]; rfl, id⟩
  | .seq first second => fun a mem => by
    rw [steps, mem_append] at mem
    rcases mem with mem | mem
    · exact first.label_of_mem_steps names seen inPart a mem
    · exact second.label_of_mem_steps names seen inPart a mem
  | .scope head body => fun a mem => by
    rw [steps, mem_cons, mem_append, mem_append] at mem
    rcases mem with rfl | mem | mem | mem
    · exact ⟨fun _ => rfl, id⟩
    · exact head.label_of_mem_steps _ seen inPart a mem
    · exact body.label_of_mem_steps _ seen inPart a mem
    · rw [mem_singleton.mp mem]
      exact ⟨fun _ => rfl, id⟩

theorem Head.label_of_mem_steps (names : List α) (seen inPart : Bool) :
    ∀ h : Head α, ∀ a ∈ h.steps names seen inPart,
      (seen = false → a.2.renamed = false) ∧ (inPart = true → a.2.inPart = true)
  | .done => fun _ mem => nomatch mem
  | .param _ rest => fun a mem => by
    rcases mem_cons.mp mem with rfl | mem
    · exact ⟨fun _ => rfl, id⟩
    · exact rest.label_of_mem_steps names seen inPart a mem
  | .part sees inside rest => fun a mem => by
    rcases mem_append.mp mem with mem | mem
    · obtain ⟨unseen, within⟩ := inside.label_of_mem_steps names (seen && sees) true a mem
      exact ⟨fun hidden => unseen (by rw [hidden]; rfl), fun _ => within rfl⟩
    · exact rest.label_of_mem_steps names seen inPart a mem
end

theorem Text.map_treat_unseen (names : List α) (inPart : Bool) (t : Text α) :
    (t.steps names false inPart).map (treat f) = t.walk := by
  rw [← t.map_fst_steps names false inPart]
  exact map_congr_left fun a mem => treat_kept f
    ((t.label_of_mem_steps names false inPart a mem).1 rfl)

theorem map_pick (names : List α) (inPart : Bool) {x : α} {kind : α → Step α}
    (maps : ∀ g : α → α, (kind x).map g = kind (g x)) :
    treat f (kind x, ⟨true && decide (x ∈ names), inPart⟩) = kind (pick f names x) := by
  unfold treat pick
  rw [maps]
  by_cases listed : x ∈ names
  · simp [listed]
  · simp [listed]

mutual
theorem Text.walk_rename (f : α → α) (names : List α) (inPart : Bool) :
    ∀ t : Text α, (t.rename f names).walk = (t.steps names true inPart).map (treat f)
  | .skip => rfl
  | .bind x | .use x => congrArg (fun a => [a]) (map_pick f names inPart fun _ => rfl).symm
  | .seq first second => by
    rw [rename, walk, steps, map_append, first.walk_rename _ _ inPart,
      second.walk_rename _ _ inPart]
  | .scope head body => by
    rw [rename, walk, steps, map_cons, map_append, map_append,
      head.walk_rename _ _ inPart, body.walk_rename _ _ inPart]
    rfl

theorem Head.walk_rename (f : α → α) (names : List α) (inPart : Bool) :
    ∀ h : Head α, (h.rename f names).walk = (h.steps names true inPart).map (treat f)
  | .done => rfl
  | .param x rest => by
    rw [Head.rename, Head.walk, Head.steps, map_cons, rest.walk_rename _ _ inPart]
    rfl
  | .part true inside rest => by
    rw [Head.rename, Head.walk, Head.steps, map_append, rest.walk_rename _ _ inPart,
      if_pos rfl, inside.walk_rename _ _ true]
    rfl
  | .part false inside rest => by
    rw [Head.rename, Head.walk, Head.steps, map_append, rest.walk_rename _ _ inPart,
      if_neg Bool.false_ne_true, Bool.and_false, inside.map_treat_unseen]
end

mutual
theorem Text.after_steps (names : List α) (seen inPart : Bool) :
    ∀ (t : Text α) {s : Scopes α Label} {frame : List (Decl α Label)}
      {frames : List (List (Decl α Label))}, s.frames = frame :: frames →
      ∃ new, (after s (t.steps names seen inPart)).frames = (new ++ frame) :: frames ∧
        ∀ d ∈ new, d.label.inPart = inPart ∧ d.name ∈ t.declared
  | .skip, s, frame, frames, opened | .use x, s, frame, frames, opened =>
    ⟨[], opened, fun _ mem => nomatch mem⟩
  | .bind x, s, frame, frames, opened => by
    change ∃ new, (step s (.bind x, _)).1.frames = _ ∧ _
    cases old : find x s.frames with
    | some d =>
      rw [step_bind_found s _ old]
      exact ⟨[], opened, fun _ mem => nomatch mem⟩
    | none =>
      rw [step_bind_new s _ old, opened]
      refine ⟨[⟨x, s.next, ⟨seen && decide (x ∈ names), inPart⟩⟩], rfl, fun d mem => ?_⟩
      rw [mem_singleton.mp mem]
      exact ⟨rfl, mem_cons_self⟩
  | .seq first second, s, frame, frames, opened => by
    obtain ⟨early, opened, fromFirst⟩ := first.after_steps names seen inPart opened
    obtain ⟨late, opened, fromSecond⟩ := second.after_steps names seen inPart opened
    rw [steps, after_append, opened]
    refine ⟨late ++ early, by rw [append_assoc], fun d mem => ?_⟩
    rcases mem_append.mp mem with mem | mem
    · exact ⟨(fromSecond d mem).1, mem_append_right _ (fromSecond d mem).2⟩
    · exact ⟨(fromFirst d mem).1, mem_append_left _ (fromFirst d mem).2⟩
  | .scope head body, s, frame, frames, opened => by
    have entered : (step s (.enter, (⟨false, inPart⟩ : Label))).1.frames = [] :: s.frames := rfl
    obtain ⟨params, inHead, _⟩ :=
      head.after_steps (without names head.params) seen inPart entered
    obtain ⟨own, inBody, _⟩ := body.after_steps (without names head.params) seen inPart inHead
    rw [steps, after_cons, after_append, after_append, after_cons, after_nil]
    refine ⟨[], ?_, fun _ mem => nomatch mem⟩
    change List.tail _ = _
    rw [inBody]
    exact opened

theorem Head.after_steps (names : List α) (seen inPart : Bool) :
    ∀ (h : Head α) {s : Scopes α Label} {frame : List (Decl α Label)}
      {frames : List (List (Decl α Label))}, s.frames = frame :: frames →
      ∃ new, (after s (h.steps names seen inPart)).frames = (new ++ frame) :: frames ∧
        (∀ d ∈ new, d.label.inPart = true ∨ d.label.renamed = false ∧ d.name ∈ h.params) ∧
          ∀ x ∈ h.params, ∃ d ∈ new, d.name = x
  | .done, s, frame, frames, opened =>
    ⟨[], opened, fun _ mem => (nomatch mem), fun _ mem => nomatch mem⟩
  | .param x rest, s, frame, frames, opened => by
    have declared : (step s (.param x, (⟨false, inPart⟩ : Label))).1.frames =
        (⟨x, s.next, ⟨false, inPart⟩⟩ :: frame) :: frames := by
      change declare _ s.frames = _
      rw [opened]
      rfl
    obtain ⟨new, later, fromRest, all⟩ := rest.after_steps names seen inPart declared
    rw [Head.steps, after_cons, later]
    refine ⟨new ++ [⟨x, s.next, ⟨false, inPart⟩⟩], by simp, fun d mem => ?_, fun y listed => ?_⟩
    · rcases mem_append.mp mem with mem | mem
      · exact (fromRest d mem).imp_right fun own => ⟨own.1, mem_cons_of_mem x own.2⟩
      · rw [mem_singleton.mp mem]
        exact .inr ⟨rfl, mem_cons_self⟩
    · rcases mem_cons.mp listed with rfl | listed
      · exact ⟨_, mem_append_right _ (mem_singleton_self _), rfl⟩
      · obtain ⟨d, mem, named⟩ := all y listed
        exact ⟨d, mem_append_left _ mem, named⟩
  | .part sees inside rest, s, frame, frames, opened => by
    obtain ⟨early, opened, fromInside⟩ := inside.after_steps names (seen && sees) true opened
    obtain ⟨late, opened, fromRest, all⟩ := rest.after_steps names seen inPart opened
    rw [Head.steps, after_append, opened]
    refine ⟨late ++ early, by rw [append_assoc], fun d mem => ?_, fun y listed => ?_⟩
    · rcases mem_append.mp mem with mem | mem
      · exact fromRest d mem
      · exact .inl (fromInside d mem).1
    · obtain ⟨d, mem, named⟩ := all y listed
      exact ⟨d, mem_append_left _ mem, named⟩
end

/-- What is visible outside the parts is renamed exactly when its name is to be renamed. -/
def Visible (names : List α) (frames : List (List (Decl α Label))) : Prop :=
  ∀ x d, find x frames = some d → d.label.inPart = false → d.label.renamed = decide (x ∈ names)

/-- A place outside the parts is treated like a declaration outside them. -/
def Outside : Prop :=
  ref.label.inPart = false → ∀ d ∈ ref.decl, d.label.inPart = false →
    ref.label.renamed = d.label.renamed

theorem Head.outside (names : List α) (seen : Bool) :
    ∀ (h : Head α) (s : Scopes α Label), ∀ ref ∈ refs s (h.steps names seen false), Outside ref
  | .done, s => fun _ mem => nomatch mem
  | .param x rest, s => fun ref mem => by
    rcases mem_cons.mp mem with rfl | mem
    · intro _ d meant _
      rw [← Option.some.inj meant]
    · exact rest.outside names seen _ ref mem
  | .part sees inside rest, s => fun ref mem => by
    rw [Head.steps, refs_append] at mem
    rcases mem_append.mp mem with mem | mem
    · intro out
      obtain ⟨a, listed, same⟩ := label_of_mem_refs _ s ref mem
      rw [← same, (inside.label_of_mem_steps names _ true a listed).2 rfl] at out
      exact absurd out (by decide)
    · exact rest.outside names seen _ ref mem

/-- In a scope whose parameters are declared, what is visible is renamed exactly when its name is
still to be renamed. -/
theorem visible_of_head {frames : List (List (Decl α Label))}
    (visible : Visible names frames) {new : List (Decl α Label)}
    (own : ∀ d ∈ new, d.label.inPart = true ∨ d.label.renamed = false ∧ d.name ∈ params)
    (all : ∀ x ∈ params, ∃ d ∈ new, d.name = x) :
    Visible (without names params) (new :: frames) := by
  intro x d found out
  have split : find x (new :: frames) =
      (new.find? fun d => decide (d.name = x)).or (find x frames) := by
    unfold find
    rw [flatten_cons, List.find?_append]
  rw [split] at found
  cases here : new.find? fun d => decide (d.name = x) with
  | some first =>
    rw [here] at found
    obtain rfl : first = d := Option.some.inj found
    have named := List.find?_some here
    have named := of_decide_eq_true named
    rcases own first (mem_of_find?_eq_some here) with within | ⟨kept, isParam⟩
    · rw [within] at out
      exact absurd out (by decide)
    · rw [kept, eq_comm, decide_eq_false_iff_not, mem_without]
      exact fun both => both.2 (named ▸ isParam)
  | none =>
    rw [here] at found
    have notParam : x ∉ params := by
      intro listed
      obtain ⟨d', mem, named⟩ := all x listed
      exact absurd (decide_eq_true named) (List.find?_eq_none.mp here d' mem)
    rw [visible x d found out, decide_eq_decide, mem_without]
    exact ⟨fun listed => ⟨listed, notParam⟩, fun both => both.1⟩

theorem Visible.outside {s : Scopes α Label} (visible : Visible names s.frames)
    (x : α) (d : Decl α Label) (found : find x s.frames = some d) :
    Outside ⟨⟨true && decide (x ∈ names), false⟩, some d⟩ := by
  intro _ d' meant out
  obtain rfl : d = d' := Option.some.inj meant
  rw [visible x d found out]
  rfl

/-- The places of a text are treated like what they mean, and it keeps what is visible. -/
theorem Text.outside : ∀ (t : Text α) (names : List α) {s : Scopes α Label}, s.frames ≠ [] →
    Visible names s.frames →
    (∀ ref ∈ refs s (t.steps names true false), Outside ref) ∧
      Visible names (after s (t.steps names true false)).frames
  | .skip, names, s, _, visible => ⟨fun _ mem => (nomatch mem), visible⟩
  | .use x, names, s, _, visible => by
    refine ⟨fun ref mem => ?_, visible⟩
    rw [mem_singleton.mp mem]
    cases old : find x s.frames with
    | some d => exact visible.outside x d old
    | none => exact fun _ d meant => nomatch meant
  | .bind x, names, s, _, visible => by
    rw [steps, refs_cons, refs_nil, append_nil, after_cons, after_nil]
    cases old : find x s.frames with
    | some d =>
      rw [step_bind_found s _ old]
      refine ⟨fun ref mem => ?_, visible⟩
      rw [mem_singleton.mp mem]
      exact visible.outside x d old
    | none =>
      rw [step_bind_new s _ old]
      refine ⟨fun ref mem => ?_, fun y d found out => ?_⟩
      · rw [mem_singleton.mp mem]
        intro _ d meant _
        rw [← Option.some.inj meant]
      · rw [find_declare] at found
        by_cases same : x = y
        · rw [if_pos same] at found
          rw [← Option.some.inj found, ← same]
          rfl
        · rw [if_neg same] at found
          exact visible y d found out
  | .seq first second, names, s, opened, visible => by
    obtain ⟨early, between⟩ := first.outside names opened visible
    have stillOpen : (after s (first.steps names true false)).frames ≠ [] := by
      obtain ⟨frame, frames, split⟩ := exists_cons_of_ne_nil opened
      obtain ⟨new, grown, _⟩ := first.after_steps names true false split
      rw [grown]
      exact cons_ne_nil _ _
    obtain ⟨late, atEnd⟩ := second.outside names stillOpen between
    rw [steps, refs_append, after_append]
    refine ⟨fun ref mem => ?_, atEnd⟩
    rcases mem_append.mp mem with mem | mem
    · exact early ref mem
    · exact late ref mem
  | .scope head body, names, s, opened, visible => by
    have entered : (step s (.enter, (⟨false, false⟩ : Label))).1.frames = [] :: s.frames := rfl
    obtain ⟨params, inHead, own, all⟩ :=
      head.after_steps (without names head.params) true false entered
    obtain ⟨new, inBody, _⟩ := body.after_steps (without names head.params) true false inHead
    rw [append_nil] at inHead
    have inside := visible_of_head visible own all
    rw [← inHead] at inside
    obtain ⟨inBodyRefs, _⟩ := body.outside _ (by rw [inHead]; exact cons_ne_nil _ _) inside
    rw [steps, refs_cons, refs_append, refs_append, after_cons, after_append, after_append]
    refine ⟨fun ref mem => ?_, ?_⟩
    · rcases mem_append.mp mem with mem | mem
      · exact nomatch mem
      · rcases mem_append.mp mem with mem | mem
        · exact head.outside _ true _ ref mem
        · rcases mem_append.mp mem with mem | mem
          · exact inBodyRefs ref mem
          · exact nomatch mem
    · change Visible names (List.tail _)
      rw [inBody]
      exact visible

def Text.places (names : List α) (t : Text α) : List (Ref α Label) :=
  refs start (t.steps names true false)

theorem Text.alike_of_not_touchesPart :
    ∀ ref ∈ t.places names, ¬ TouchesPart ref → Alike ref := by
  intro ref mem apart d meant
  have visible : Visible names start.frames := fun x d found => nomatch found
  have outside := (t.outside names (cons_ne_nil _ _) visible).1 ref mem
  have refOut : ref.label.inPart = false := eq_false_of_ne_true fun within => apart (.inl within)
  have declOut : d.label.inPart = false :=
    eq_false_of_ne_true fun within => apart (.inr ⟨d, meant, within⟩)
  exact outside refOut d meant declOut

def renamer (known : α → Prop) (injective : ∀ x y, known x → known y → f x = f y → x = y)
    (fresh : ∀ x y, known x → known y → f x ≠ y) : Renaming α Label where
  kind := Label.renamed
  rename l := if l.renamed then f else id
  known := known
  alike l l' x same := by rw [same]
  apart l l' x y knownX knownY same := by
    cases left : l.renamed <;> cases right : l'.renamed <;> rw [left, right] at same
    · exact ⟨rfl, same⟩
    · exact absurd same.symm (fresh y x knownY knownX)
    · exact absurd same (fresh x y knownX knownY)
    · exact ⟨rfl, injective x y knownX knownY same⟩

/-- What a text means does not depend on what is known of its places. -/
theorem Text.meaning_eq (names : List α) (seen inPart : Bool) (t : Text α) :
    t.meaning = resolve (t.steps names seen inPart) := by
  unfold meaning
  rw [← resolve_relabel (fun _ => ()) (t.steps names seen inPart),
    ← t.map_fst_steps names seen inPart, map_map]
  rfl

/-- A renamer with fresh names keeps every meaning exactly when every place that touches a part is
treated like what it means. -/
theorem Text.meaning_rename_iff {f : α → α} (known : α → Prop)
    (injective : ∀ x y, known x → known y → f x = f y → x = y)
    (fresh : ∀ x y, known x → known y → f x ≠ y) (names : List α) (t : Text α)
    (named : ∀ a ∈ t.walk, ∀ x ∈ a.names, known x) :
    (t.rename f names).meaning = t.meaning ↔
      ∀ ref ∈ t.places names, TouchesPart ref → Alike ref := by
  have steps : (t.rename f names).walk.map (fun a => (a, ())) =
      ((t.steps names true false).map (renamer f known injective fresh).step).map
        fun a => (a.1, ()) := by
    rw [t.walk_rename f names false, map_map, map_map]
    rfl
  have renamed : (t.rename f names).meaning =
      resolve ((t.steps names true false).map (renamer f known injective fresh).step) := by
    unfold meaning
    rw [steps]
    exact resolve_relabel (fun _ => ()) _
  rw [renamed, t.meaning_eq names true false, Renaming.resolve_iff]
  · constructor
    · exact fun all ref mem _ => all ref mem
    · intro touching ref mem
      by_cases touches : TouchesPart ref
      · exact touching ref mem touches
      · exact t.alike_of_not_touchesPart ref mem touches
  · intro a mem x listed
    refine named a.1 ?_ x listed
    rw [← t.map_fst_steps names true false]
    exact mem_map_of_mem mem

theorem Text.locals_subset_declared : t.locals ⊆ t.declared := by
  have steps : t.walk.map (fun a => (a, ())) =
      (t.steps [] true false).map fun a => (a.1, ()) := by
    rw [← t.map_fst_steps [] true false, map_map]
    rfl
  have opened : (start : Scopes α Label).frames = [] :: [] := rfl
  obtain ⟨new, grown, declared⟩ := t.after_steps [] true false opened
  intro x listed
  unfold locals at listed
  rw [steps] at listed
  have relabelled := after_relabel (fun _ => ()) (t.steps [] true false) start
  change after (start : Scopes α Unit) _ = _ at relabelled
  rw [relabelled] at listed
  unfold Scopes.relabel at listed
  rw [grown] at listed
  simp only [map_cons, map_nil, flatten_cons, flatten_nil, append_nil, map_map, mem_map] at listed
  obtain ⟨d, mem, named⟩ := listed
  rw [← named]
  exact (declared d mem).2

theorem Text.declared_rename (f : α → α) (names : List α) : ∀ t : Text α,
    (t.rename f names).declared = t.declared.map (pick f names)
  | .skip | .bind _ | .use _ | .scope _ _ => rfl
  | .seq first second => by
    rw [rename, declared, declared, map_append, first.declared_rename, second.declared_rename]

/-- When the renamer has all names of the outermost scope, only new names are left there. -/
theorem Text.locals_rename {f : α → α} {t : Text α} (all : t.declared ⊆ names) :
    ∀ y ∈ (t.rename f names).locals, ∃ x, y = f x := by
  intro y listed
  have declared := (t.rename f names).locals_subset_declared listed
  rw [declared_rename, mem_map] at declared
  obtain ⟨x, mem, rfl⟩ := declared
  exact ⟨x, if_pos (all mem)⟩

mutual
theorem Text.rename_nil (f : α → α) : ∀ t : Text α, t.rename f [] = t
  | .skip | .bind _ | .use _ => rfl
  | .seq first second => by rw [rename, first.rename_nil, second.rename_nil]
  | .scope head body => by
    rw [rename, show without [] head.params = [] from rfl, head.rename_nil, body.rename_nil]

theorem Head.rename_nil (f : α → α) : ∀ h : Head α, h.rename f [] = h
  | .done => rfl
  | .param _ rest => by rw [Head.rename, rest.rename_nil]
  | .part _ inside rest => by rw [Head.rename, inside.rename_nil, ite_self, rest.rename_nil]
end

end Renamer

end Zeo.Lib.ScopeTree
