import Mathlib.Data.List.Basic

/-!
# Local names in nested scopes

A text with local names is read from the front. Scopes open and close, a parameter is declared in
the scope it stands in, an assignment declares its name there unless the name is visible, and a use
means the nearest declaration. A renaming that treats each place by its label keeps every meaning
exactly when each place is treated like the place that declared it.
-/

namespace Zeo.Lib.Scoping

open List

inductive Step (α : Type) where
  | enter
  | exit
  | param (x : α)
  | bind (x : α)
  | use (x : α)
deriving DecidableEq, Repr

def Step.names {α : Type} : Step α → List α
  | .enter => []
  | .exit => []
  | .param x => [x]
  | .bind x => [x]
  | .use x => [x]

def Step.map {α : Type} (f : α → α) : Step α → Step α
  | .enter => .enter
  | .exit => .exit
  | .param x => .param (f x)
  | .bind x => .bind (f x)
  | .use x => .use (f x)

structure Decl (α L : Type) where
  name : α
  site : Nat
  label : L
deriving DecidableEq, Repr

/-- The open scopes, the nearest first, and the number of places read. -/
structure Scopes (α L : Type) where
  frames : List (List (Decl α L))
  next : Nat

structure Ref (α L : Type) where
  label : L
  decl : Option (Decl α L)

/-- The place that declared what a place means. -/
def Ref.site {α L : Type} (ref : Ref α L) : Option Nat := ref.decl.map Decl.site

section Reading

variable {α L : Type}

def declare (d : Decl α L) : List (List (Decl α L)) → List (List (Decl α L))
  | [] => [[d]]
  | frame :: frames => (d :: frame) :: frames

theorem flatten_declare (d : Decl α L) (frames : List (List (Decl α L))) :
    (declare d frames).flatten = d :: frames.flatten := by
  cases frames <;> rfl

def start : Scopes α L := ⟨[[]], 0⟩

variable [DecidableEq α]

def find (x : α) (frames : List (List (Decl α L))) : Option (Decl α L) :=
  frames.flatten.find? fun d => decide (d.name = x)

def step (s : Scopes α L) : Step α × L → Scopes α L × List (Ref α L)
  | (.enter, _) => (⟨[] :: s.frames, s.next⟩, [])
  | (.exit, _) => (⟨s.frames.tail, s.next⟩, [])
  | (.param x, l) => (⟨declare ⟨x, s.next, l⟩ s.frames, s.next + 1⟩, [⟨l, some ⟨x, s.next, l⟩⟩])
  | (.bind x, l) =>
    match find x s.frames with
    | some d => (⟨s.frames, s.next + 1⟩, [⟨l, some d⟩])
    | none => (⟨declare ⟨x, s.next, l⟩ s.frames, s.next + 1⟩, [⟨l, some ⟨x, s.next, l⟩⟩])
  | (.use x, l) => (⟨s.frames, s.next + 1⟩, [⟨l, find x s.frames⟩])

def after (s : Scopes α L) (steps : List (Step α × L)) : Scopes α L :=
  steps.foldl (fun s a => (step s a).1) s

def refs (s : Scopes α L) : List (Step α × L) → List (Ref α L)
  | [] => []
  | a :: steps => (step s a).2 ++ refs (step s a).1 steps

/-- For each place of a text, the place that declared its name. -/
def resolve (steps : List (Step α × L)) : List (Option Nat) := (refs start steps).map Ref.site

variable (s : Scopes α L)

@[simp]
theorem after_nil : after s [] = s := rfl

@[simp]
theorem after_cons (a : Step α × L) (steps : List (Step α × L)) :
    after s (a :: steps) = after (step s a).1 steps := rfl

theorem after_append (first second : List (Step α × L)) :
    after s (first ++ second) = after (after s first) second := foldl_append

@[simp]
theorem refs_nil : refs s [] = [] := rfl

@[simp]
theorem refs_cons (a : Step α × L) (steps : List (Step α × L)) :
    refs s (a :: steps) = (step s a).2 ++ refs (step s a).1 steps := rfl

theorem refs_append (first second : List (Step α × L)) :
    refs s (first ++ second) = refs s first ++ refs (after s first) second := by
  induction first generalizing s with
  | nil => rfl
  | cons a first ih =>
    rw [cons_append, refs_cons, refs_cons, ih, append_assoc, after_cons]

variable {x : α} {d : Decl α L}

theorem find_mem {frames : List (List (Decl α L))}
    (found : find x frames = some d) : d ∈ frames.flatten := mem_of_find?_eq_some found

theorem step_bind_found (l : L) (found : find x s.frames = some d) :
    step s (.bind x, l) = (⟨s.frames, s.next + 1⟩, [⟨l, some d⟩]) := by
  simp only [step, found]

theorem step_bind_new (l : L) (missing : find x s.frames = none) :
    step s (.bind x, l) =
      (⟨declare ⟨x, s.next, l⟩ s.frames, s.next + 1⟩, [⟨l, some ⟨x, s.next, l⟩⟩]) := by
  simp only [step, missing]

theorem find_declare (d : Decl α L) (frames : List (List (Decl α L))) (x : α) :
    find x (declare d frames) = if d.name = x then some d else find x frames := by
  unfold find
  rw [flatten_declare]
  by_cases same : d.name = x
  · simp [same]
  · simp [same]

variable {L' : Type} (g : L → L')

def Decl.relabel (d : Decl α L) : Decl α L' := ⟨d.name, d.site, g d.label⟩

def Scopes.relabel (s : Scopes α L) : Scopes α L' :=
  ⟨s.frames.map (List.map (Decl.relabel g)), s.next⟩

def Ref.relabel (ref : Ref α L) : Ref α L' := ⟨g ref.label, ref.decl.map (Decl.relabel g)⟩

theorem find_relabel (x : α) (frames : List (List (Decl α L))) :
    find x (frames.map (List.map (Decl.relabel g))) = (find x frames).map (Decl.relabel g) := by
  unfold find
  rw [← map_flatten, List.find?_map]
  rfl

theorem step_relabel (a : Step α × L) :
    step (s.relabel g) (a.1, g a.2) =
      ((step s a).1.relabel g, (step s a).2.map (Ref.relabel g)) := by
  obtain ⟨kind, l⟩ := a
  have declared : ∀ x : α,
      (⟨declare ⟨x, s.next, g l⟩ (s.relabel g).frames, s.next + 1⟩ : Scopes α L') =
        Scopes.relabel g ⟨declare ⟨x, s.next, l⟩ s.frames, s.next + 1⟩ := by
    intro x
    unfold Scopes.relabel
    cases s.frames <;> rfl
  cases kind with
  | enter => rfl
  | exit =>
    simp only [step, Scopes.relabel]
    cases s.frames <;> rfl
  | param x => exact Prod.ext (declared x) rfl
  | use x =>
    change (_, [(⟨g l, find x (s.relabel g).frames⟩ : Ref α L')]) = _
    rw [show find x (s.relabel g).frames = _ from find_relabel g x s.frames]
    rfl
  | bind x =>
    have same : find x (s.relabel g).frames = _ := find_relabel g x s.frames
    cases old : find x s.frames with
    | some d =>
      rw [old] at same
      rw [step_bind_found s l old, step_bind_found _ (g l) same]
      rfl
    | none =>
      rw [old] at same
      rw [step_bind_new s l old, step_bind_new _ (g l) same]
      exact Prod.ext (declared x) rfl

variable (steps : List (Step α × L))

theorem refs_relabel : ∀ s : Scopes α L,
    refs (s.relabel g) (steps.map fun a => (a.1, g a.2)) = (refs s steps).map (Ref.relabel g) := by
  induction steps with
  | nil => exact fun _ => rfl
  | cons a steps ih =>
    intro s
    rw [map_cons, refs_cons, refs_cons, step_relabel, ih, map_append]

theorem after_relabel : ∀ s : Scopes α L,
    after (s.relabel g) (steps.map fun a => (a.1, g a.2)) = (after s steps).relabel g := by
  induction steps with
  | nil => exact fun _ => rfl
  | cons a steps ih =>
    intro s
    rw [map_cons, after_cons, after_cons, step_relabel, ih]

theorem resolve_relabel :
    resolve (steps.map fun a => (a.1, g a.2)) = resolve steps := by
  have same := refs_relabel g steps start
  have sites : ∀ ref : Ref α L, (ref.relabel g).site = ref.site := by
    intro ref
    unfold Ref.site Ref.relabel
    cases ref.decl <;> rfl
  change (refs (start.relabel g) _).map Ref.site = _
  rw [same, map_map]
  exact map_congr_left fun ref _ => sites ref

theorem label_of_mem_refs : ∀ (s : Scopes α L), ∀ ref ∈ refs s steps,
    ∃ a ∈ steps, a.2 = ref.label := by
  induction steps with
  | nil => exact fun _ ref mem => nomatch mem
  | cons a steps ih =>
    intro s ref mem
    rcases mem_append.mp mem with now | later
    · refine ⟨a, mem_cons_self, ?_⟩
      obtain ⟨kind, l⟩ := a
      cases kind with
      | enter | exit => exact nomatch now
      | param x | use x => rw [mem_singleton.mp now]
      | bind x =>
        cases old : find x s.frames with
        | some d =>
          rw [step_bind_found s l old] at now
          rw [mem_singleton.mp now]
        | none =>
          rw [step_bind_new s l old] at now
          rw [mem_singleton.mp now]
    · obtain ⟨b, listed, same⟩ := ih _ ref later
      exact ⟨b, mem_cons_of_mem a listed, same⟩

end Reading

/-- A renaming that treats a place by its label: places of two kinds never get one name, and neither
do different names. -/
structure Renaming (α L : Type) where
  /-- How a place with this label is treated. -/
  kind : L → Bool
  rename : L → α → α
  known : α → Prop
  alike : ∀ l l' x, kind l = kind l' → rename l x = rename l' x
  apart : ∀ l l' x y, known x → known y → rename l x = rename l' y → kind l = kind l' ∧ x = y

namespace Renaming

variable {α L : Type} (r : Renaming α L)

def decl (d : Decl α L) : Decl α L := { d with name := r.rename d.label d.name }

def scopes (s : Scopes α L) : Scopes α L := ⟨s.frames.map (List.map r.decl), s.next⟩

def step (a : Step α × L) : Step α × L := (a.1.map (r.rename a.2), a.2)

/-- A place is treated like the place that declared it. -/
def Matched (ref : Ref α L) : Prop := ∀ d ∈ ref.decl, r.kind ref.label = r.kind d.label

/-- Every declaration has a known name and a place of its own, before the next. -/
structure Sound (s : Scopes α L) : Prop where
  known : ∀ d ∈ s.frames.flatten, r.known d.name
  past : ∀ d ∈ s.frames.flatten, d.site < s.next
  single : ∀ d ∈ s.frames.flatten, ∀ d' ∈ s.frames.flatten, d.site = d'.site → d = d'

variable {r} {s : Scopes α L}

theorem Sound.declare (sound : r.Sound s) (known : r.known x) (l : L) :
    r.Sound ⟨declare ⟨x, s.next, l⟩ s.frames, s.next + 1⟩ := by
  have old : ∀ d ∈ (Scoping.declare ⟨x, s.next, l⟩ s.frames).flatten,
      d = ⟨x, s.next, l⟩ ∨ d ∈ s.frames.flatten := by
    intro d mem
    rw [flatten_declare] at mem
    exact mem_cons.mp mem
  refine ⟨fun d mem => ?_, fun d mem => ?_, fun d mem d' member' same => ?_⟩
  · rcases old d mem with rfl | mem
    · exact known
    · exact sound.known d mem
  · rcases old d mem with rfl | mem
    · exact Nat.lt_succ_self _
    · exact Nat.lt_succ_of_lt (sound.past d mem)
  · rcases old d mem with rfl | mem
    · rcases old d' member' with rfl | member'
      · rfl
      · exact absurd same (Nat.ne_of_gt (sound.past d' member'))
    · rcases old d' member' with rfl | member'
      · exact absurd same (Nat.ne_of_lt (sound.past d mem))
      · exact sound.single d mem d' member' same

theorem Sound.next (sound : r.Sound s) : r.Sound ⟨s.frames, s.next + 1⟩ :=
  ⟨sound.known, fun d mem => Nat.lt_succ_of_lt (sound.past d mem), sound.single⟩

theorem scopes_declare (s : Scopes α L) (x : α) (l : L) :
    r.scopes ⟨Scoping.declare ⟨x, s.next, l⟩ s.frames, s.next + 1⟩ =
      ⟨Scoping.declare ⟨r.rename l x, s.next, l⟩ (r.scopes s).frames, s.next + 1⟩ := by
  unfold scopes
  cases s.frames <;> rfl

variable [DecidableEq α]

theorem Sound.step (sound : r.Sound s) (a : Step α × L)
    (known : ∀ x ∈ a.1.names, r.known x) : r.Sound (Scoping.step s a).1 := by
  obtain ⟨step, l⟩ := a
  cases step with
  | enter => exact ⟨sound.known, sound.past, sound.single⟩
  | exit =>
    have fewer : ∀ d ∈ s.frames.tail.flatten, d ∈ s.frames.flatten := by
      intro d mem
      obtain ⟨frame, inTail, inFrame⟩ := mem_flatten.mp mem
      exact mem_flatten.mpr ⟨frame, mem_of_mem_tail inTail, inFrame⟩
    exact ⟨fun d mem => sound.known d (fewer d mem),
      fun d mem => sound.past d (fewer d mem),
      fun d mem d' member' => sound.single d (fewer d mem) d' (fewer d' member')⟩
  | param x => exact sound.declare (known x mem_cons_self) l
  | bind x =>
    cases old : find x s.frames with
    | some d =>
      rw [step_bind_found s l old]
      exact sound.next
    | none =>
      rw [step_bind_new s l old]
      exact sound.declare (known x mem_cons_self) l
  | use x => exact sound.next

section

variable {s : Scopes α L} (sound : r.Sound s) {x : α} (known : r.known x) (l : L)

include sound known

/-- A new name finds the nearest declaration of the old one that is treated alike. -/
theorem find_scopes :
    find (r.rename l x) (r.scopes s).frames =
      (s.frames.flatten.find? fun d => decide (d.name = x ∧ r.kind l = r.kind d.label)).map
        r.decl := by
  have flat : (r.scopes s).frames.flatten = s.frames.flatten.map r.decl := by
    unfold scopes
    rw [map_flatten]
  unfold find
  rw [flat, List.find?_map]
  congr 1
  have same : ∀ d ∈ s.frames.flatten,
      decide (r.rename d.label d.name = r.rename l x) =
        decide (d.name = x ∧ r.kind l = r.kind d.label) := by
    intro d mem
    rw [decide_eq_decide]
    constructor
    · intro equal
      obtain ⟨kinds, names⟩ := r.apart _ _ _ _ (sound.known d mem) known equal
      exact ⟨names, kinds.symm⟩
    · rintro ⟨rfl, kinds⟩
      exact r.alike _ _ _ kinds.symm
  rw [← List.head?_filter, ← List.head?_filter]
  exact congrArg List.head? (filter_congr same)

/-- A new name that is treated like the old one's declaration finds it. -/
theorem find_matched (matched : ∀ d ∈ find x s.frames, r.kind l = r.kind d.label) :
    find (r.rename l x) (r.scopes s).frames = (find x s.frames).map r.decl := by
  rw [find_scopes sound known]
  congr 1
  unfold find at *
  generalize s.frames.flatten = decls at matched ⊢
  induction decls with
  | nil => rfl
  | cons d decls ih =>
    rw [List.find?_cons] at matched
    rw [List.find?_cons, List.find?_cons]
    by_cases named : d.name = x
    · have kinds : r.kind l = r.kind d.label := matched d (by simp [named])
      simp [named, kinds]
    · simp only [named] at matched ⊢
      exact ih matched

/-- A new name that finds the place of the old one's declaration is treated like it. -/
theorem matched_of_site {d d' : Decl α L} (found : find x s.frames = some d)
    (found' : find (r.rename l x) (r.scopes s).frames = some d') (same : d'.site = d.site) :
    r.kind l = r.kind d.label := by
  rw [find_scopes sound known, Option.map_eq_some_iff] at found'
  obtain ⟨source, first, rfl⟩ := found'
  have both := List.find?_some first
  have kinds := (of_decide_eq_true both).2
  rw [sound.single source (mem_of_find?_eq_some first) d (find_mem found) same] at kinds
  exact kinds

end

theorem step_matched (sound : r.Sound s) {a : Step α × L}
    (known : ∀ x ∈ a.1.names, r.known x) (matched : ∀ ref ∈ (Scoping.step s a).2, r.Matched ref) :
    (Scoping.step (r.scopes s) (r.step a)).1 = r.scopes (Scoping.step s a).1 ∧
      (Scoping.step (r.scopes s) (r.step a)).2.map Ref.site =
        (Scoping.step s a).2.map Ref.site := by
  obtain ⟨step, l⟩ := a
  cases step with
  | enter => exact ⟨rfl, rfl⟩
  | exit =>
    refine ⟨?_, rfl⟩
    unfold Renaming.step Scoping.step scopes
    cases s.frames <;> rfl
  | param x =>
    refine ⟨?_, rfl⟩
    exact (scopes_declare s x l).symm
  | use x =>
    have found := find_matched sound (known x mem_cons_self) l
      (matched _ (mem_singleton_self _))
    refine ⟨rfl, ?_⟩
    change [Option.map Decl.site (find (r.rename l x) (r.scopes s).frames)] = _
    rw [found]
    simp only [Scoping.step]
    cases find x s.frames <;> rfl
  | bind x =>
    have known := known x mem_cons_self
    change (Scoping.step (r.scopes s) (.bind (r.rename l x), l)).1 = _ ∧
      (Scoping.step (r.scopes s) (.bind (r.rename l x), l)).2.map Ref.site = _
    cases old : find x s.frames with
    | some d =>
      rw [step_bind_found s l old] at matched ⊢
      have found := find_matched sound known l
        (by rw [old]; exact matched _ (mem_singleton_self _))
      rw [old] at found
      rw [step_bind_found _ l found]
      exact ⟨rfl, rfl⟩
    | none =>
      have found := find_matched sound known l (by rw [old]; exact fun _ mem => nomatch mem)
      rw [old] at found
      rw [step_bind_new s l old, step_bind_new _ l found]
      exact ⟨(scopes_declare s x l).symm, rfl⟩

theorem matched_of_step (sound : r.Sound s) {a : Step α × L} (known : ∀ x ∈ a.1.names, r.known x)
    (same : (Scoping.step (r.scopes s) (r.step a)).2.map Ref.site =
      (Scoping.step s a).2.map Ref.site) : ∀ ref ∈ (Scoping.step s a).2, r.Matched ref := by
  obtain ⟨step, l⟩ := a
  cases step with
  | enter | exit => exact fun ref mem => nomatch mem
  | param x =>
    intro ref mem d meant
    rw [mem_singleton.mp mem] at meant ⊢
    cases meant
    rfl
  | use x =>
    intro ref mem d meant
    rw [mem_singleton.mp mem] at meant ⊢
    have sites := (List.cons.inj same).1
    change Option.map Decl.site (find (r.rename l x) (r.scopes s).frames) =
      Option.map Decl.site (find x s.frames) at sites
    rw [show find x s.frames = some d from meant, Option.map_some, Option.map_eq_some_iff] at sites
    obtain ⟨d', found', site⟩ := sites
    exact matched_of_site sound (known x mem_cons_self) l meant found' site
  | bind x =>
    have known := known x mem_cons_self
    change (Scoping.step (r.scopes s) (.bind (r.rename l x), l)).2.map Ref.site = _ at same
    intro ref mem d meant
    cases old : find x s.frames with
    | none =>
      rw [step_bind_new s l old] at mem
      rw [mem_singleton.mp mem] at meant ⊢
      cases meant
      rfl
    | some declared =>
      rw [step_bind_found s l old] at mem same
      rw [mem_singleton.mp mem] at meant ⊢
      have isDeclared : declared = d := Option.some.inj meant
      subst isDeclared
      cases new : find (r.rename l x) (r.scopes s).frames with
      | some d' =>
        rw [step_bind_found _ l new] at same
        have site : d'.site = declared.site := by simpa [Ref.site] using same
        exact matched_of_site sound known l old new site
      | none =>
        -- The renamed assignment would declare a name at a place of its own.
        rw [step_bind_new _ l new] at same
        have site : s.next = declared.site := by simpa [Ref.site, scopes] using same
        exact absurd site (Nat.ne_of_gt (sound.past declared (find_mem old)))

variable {steps : List (Step α × L)}

/-- From any scopes, a renaming keeps the meanings exactly when every place is treated like the
place that declared it. -/
theorem refs_iff : ∀ {s : Scopes α L}, r.Sound s → (∀ a ∈ steps, ∀ x ∈ a.1.names, r.known x) →
    ((refs (r.scopes s) (steps.map r.step)).map Ref.site = (refs s steps).map Ref.site ↔
      ∀ ref ∈ refs s steps, r.Matched ref) := by
  induction steps with
  | nil =>
    intro s _ _
    exact ⟨fun _ ref mem => (nomatch mem), fun _ => rfl⟩
  | cons a steps ih =>
    intro s sound known
    obtain ⟨here, others⟩ := forall_mem_cons.mp known
    have later := ih (sound.step a here) others
    rw [map_cons, refs_cons, refs_cons, map_append, map_append]
    have lengths : ((Scoping.step (r.scopes s) (r.step a)).2.map Ref.site).length =
        ((Scoping.step s a).2.map Ref.site).length := by
      obtain ⟨step, l⟩ := a
      rw [length_map, length_map]
      cases step with
      | bind x =>
        change (Scoping.step (r.scopes s) (.bind (r.rename l x), l)).2.length = _
        have one : ∀ (t : Scopes α L) y, (Scoping.step t (.bind y, l)).2.length = 1 := by
          intro t y
          cases old : find y t.frames with
          | some d => rw [step_bind_found t l old]; rfl
          | none => rw [step_bind_new t l old]; rfl
        rw [one, one]
      | enter | exit | param x | use x => rfl
    constructor
    · intro same
      obtain ⟨first, rest⟩ := append_inj same lengths
      have matched := matched_of_step sound here first
      rw [(step_matched sound here matched).1] at rest
      intro ref mem
      rcases mem_append.mp mem with now | then_
      · exact matched ref now
      · exact later.mp rest ref then_
    · intro matched
      have now := step_matched sound here fun ref mem =>
        matched ref (mem_append_left _ mem)
      rw [now.1, now.2, later.mpr fun ref mem => matched ref (mem_append_right _ mem)]

/-- A renaming keeps the meanings of a text exactly when every place is treated like the place that
declared it. -/
theorem resolve_iff (known : ∀ a ∈ steps, ∀ x ∈ a.1.names, r.known x) :
    resolve (steps.map r.step) = resolve steps ↔ ∀ ref ∈ refs start steps, r.Matched ref := by
  have sound : r.Sound start :=
    ⟨fun d mem => (nomatch mem), fun d mem => (nomatch mem),
      fun d mem => (nomatch mem)⟩
  have iff := refs_iff sound known
  exact iff

end Renaming

end Zeo.Lib.Scoping
