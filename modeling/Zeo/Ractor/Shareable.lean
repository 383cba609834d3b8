import Zeo.Lib.GuardedWalk
import Zeo.Ractor.Heap

/-!
# Shareable values

`Ractor.shareable?` walks a value and answers whether each node it meets is frozen or needs no
freezing. It keeps a list of the containers it has met, so that cycles end. It follows the elements
of arrays, the pairs of hashes, the ends of ranges and the instance variables of objects, and
nothing else.
-/

namespace Zeo.Ractor

open Zeo.Lib Zeo.Value List Walker Heap

variable {eql : UserEql} {im : ValueMap eql}

/-- `Iterator::all` with a test that keeps a list of what it has seen. -/
def allOf (test : RubyValue → List RubyValue → Bool × List RubyValue) :
    List RubyValue → List RubyValue → Bool × List RubyValue
  | [], seen => (true, seen)
  | v :: vs, seen =>
    match test v seen with
    | (true, seen) => allOf test vs seen
    | (false, seen) => (false, seen)

/-- The match of `shareable_guarded`, with itself for what a value holds. -/
def shareableArm (h : Heap im) (test : RubyValue → List RubyValue → Bool × List RubyValue)
    (v : RubyValue) (seen : List RubyValue) : Bool × List RubyValue :=
  match v with
  | .range addr => allOf test (rangeEnds h addr) seen
  | .str s => (h.strFrozen s, seen)
  | .array addr => if h.frozen addr then allOf test (h.elems addr) seen else (false, seen)
  | .hash addr => if h.frozen addr then allOf test (pairValues h addr) seen else (false, seen)
  | .object addr =>
    if (h.object addr).type.port then (true, seen)
    else if h.frozen addr then allOf test (ivarValues h addr) seen
    else (false, seen)
  | .reference .proc addr => (h.frozen addr, seen)
  | .reference .ractor _ => (true, seen)
  | .reference _ _ => (false, seen)
  | .matchData _ => (false, seen)
  | _ => (true, seen)

/-- `shareable_guarded`, to a bounded depth. -/
def shareableGuarded (h : Heap im) : Nat → RubyValue → List RubyValue → Bool × List RubyValue
  | 0, _, seen => (false, seen)
  | fuel + 1, v, seen =>
    if husk h v then (true, seen)
    else
      match containerIdentity v with
      | some ptr =>
        if seen.contains ptr then (true, seen)
        else shareableArm h (shareableGuarded h fuel) v (seen ++ [ptr])
      | none => shareableArm h (shareableGuarded h fuel) v seen

/-- A depth no walk over a heap goes past. -/
def Heap.depth (h : Heap im) : Nat := 3 * h.next * (h.next + 1) + h.next + 1

def shareable (h : Heap im) (v : RubyValue) : Bool := (shareableGuarded h h.depth v []).1

/-- The test passes without freezing: a husk or the handle of a port. -/
def exempt (h : Heap im) (v : RubyValue) : Bool :=
  husk h v ||
    match v with
    | .object addr => (h.object addr).type.port
    | _ => false

def passes (h : Heap im) (v : RubyValue) : Bool :=
  exempt h v ||
    match v with
    | .str s => h.strFrozen s
    | .array addr => h.frozen addr
    | .hash addr => h.frozen addr
    | .object addr => h.frozen addr
    | .reference .proc addr => h.frozen addr
    | .reference .ractor _ => true
    | .reference _ _ => false
    | .matchData _ => false
    | _ => true

def testedEdges (h : Heap im) (v : RubyValue) : List RubyValue :=
  if husk h v then [] else walkedEdges h v

def shareWalker (h : Heap im) : Walker RubyValue Unit Unit where
  guarded v := !husk h v && (containerIdentity v).isSome
  act v _ := if passes h v then .ok () else .error ()
  edges := testedEdges h
  tired := ()

def Tested (h : Heap im) : RubyValue → RubyValue → Prop := (shareWalker h).Reach

/-- An answer of the test as the end of a walk. -/
def verdict : Bool × List RubyValue → Except Unit (List RubyValue × Unit)
  | (true, seen) => .ok (seen, ())
  | (false, _) => .error ()

variable {walk : RubyValue → List RubyValue × Unit → Except Unit (List RubyValue × Unit)}
  {test : RubyValue → List RubyValue → Bool × List RubyValue}

theorem foldlM_eq_verdict
    (same : ∀ v seen, walk v (seen, ()) = verdict (test v seen)) (vs seen : List RubyValue) :
    vs.foldlM (fun st e => walk e st) (seen, ()) = verdict (allOf test vs seen) := by
  induction vs generalizing seen with
  | nil => rfl
  | cons v vs ih =>
    rw [foldlM_cons, same, allOf]
    obtain ⟨answer, seen'⟩ := test v seen
    cases answer with
    | true => exact ih seen'
    | false => rfl

variable {v : RubyValue} {h : Heap im}

theorem shareableArm_eq (same : ∀ v seen, walk v (seen, ()) = verdict (test v seen))
    (live : husk h v = false) (seen : List RubyValue) :
    (if passes h v then (testedEdges h v).foldlM (fun st e => walk e st) (seen, ())
      else .error ()) = verdict (shareableArm h test v seen) := by
  simp only [passes, exempt, live, testedEdges]
  cases v with
  | str s =>
    simp only [Bool.false_or, shareableArm]
    cases h.strFrozen s <;> rfl
  | array addr | hash addr =>
    simp only [Bool.false_or, shareableArm]
    cases h.frozen addr with
    | true => exact foldlM_eq_verdict same _ _
    | false => rfl
  | object addr =>
    change (if (h.object addr).type.port || h.frozen addr then _ else _) = verdict (if _ then _ else _)
    cases port : (h.object addr).type.port with
    | true =>
      have last : walkedEdges h (.object addr) = [] := if_pos port
      rw [last]
      rfl
    | false =>
      cases h.frozen addr with
      | true => exact foldlM_eq_verdict same _ _
      | false => rfl
  | range addr =>
    exact foldlM_eq_verdict same _ _
  | reference kind addr =>
    cases kind
    case proc =>
      simp only [Bool.false_or, shareableArm]
      cases h.frozen addr <;> rfl
    all_goals simp only [walkedEdges]; rfl
  | _ => simp only [walkedEdges]; rfl

theorem containerIdentity_eq {ptr : RubyValue} (identity : containerIdentity v = some ptr) :
    ptr = v := by
  cases v <;> cases identity <;> rfl

theorem walk_eq_verdict (h : Heap im) (fuel : Nat) (v : RubyValue) (seen : List RubyValue) :
    (shareWalker h).walk fuel v (seen, ()) = verdict (shareableGuarded h fuel v seen) := by
  induction fuel generalizing v seen with
  | zero => rfl
  | succ fuel ih =>
    have step : (shareWalker h).walk (fuel + 1) v (seen, ()) =
        if (shareWalker h).guarded v && seen.contains v then .ok (seen, ())
        else if passes h v then
          (testedEdges h v).foldlM (fun st e => (shareWalker h).walk fuel e st)
            ((shareWalker h).enter v seen, ())
        else .error () := by
      change (if _ then _ else (if passes h v then Except.ok () else Except.error ()) >>= _) = _
      cases passes h v <;> rfl
    rw [step]
    cases live : husk h v with
    | true =>
      have entered : (shareWalker h).enter v seen = seen := by
        simp [enter, shareWalker, live]
      have passed : passes h v = true := by simp [passes, exempt, live]
      have last : testedEdges h v = [] := if_pos live
      simp [shareableGuarded, shareWalker, live, passed, last] at entered ⊢
      rw [entered]
      rfl
    | false =>
      cases identity : containerIdentity v with
      | none =>
        have plain : (shareWalker h).guarded v = false := by simp [shareWalker, identity]
        have entered : (shareWalker h).enter v seen = seen := by simp [enter, plain]
        rw [plain, entered, shareableArm_eq ih live]
        simp [shareableGuarded, live, identity]
      | some ptr =>
        obtain rfl := containerIdentity_eq identity
        have guarded : (shareWalker h).guarded ptr = true := by simp [shareWalker, live, identity]
        have entered : (shareWalker h).enter ptr seen = seen ++ [ptr] := by
          simp [enter, guarded]
        rw [guarded, entered, shareableArm_eq ih live]
        simp only [shareableGuarded, live, identity, Bool.true_and]
        split <;> rfl

def containers (h : Heap im) : List RubyValue :=
  (List.range h.next).flatMap fun addr => [.array addr, .hash addr, .object addr]

theorem length_containers (h : Heap im) : (containers h).length = 3 * h.next := by
  unfold containers
  simp [Nat.mul_comm]

section SameNode

variable {h h' : Heap im} {v : RubyValue}
  (body : ∀ addr ∈ targetOf v, h'.body addr = h.body addr)

include body

theorem object_congr {addr : Addr} (target : targetOf v = some addr) :
    h'.object addr = h.object addr := by
  unfold object
  rw [body addr target]

theorem walkedEdges_congr : walkedEdges h' v = walkedEdges h v := by
  cases v with
  | array addr => simp only [walkedEdges, elems, body addr rfl]
  | hash addr => simp only [walkedEdges, pairValues, table, body addr rfl]
  | range addr => simp only [walkedEdges, rangeEnds, Heap.range, body addr rfl]
  | object addr => simp only [walkedEdges, ivarValues, object_congr body rfl]
  | _ => rfl

theorem husk_congr (moved : ∀ addr ∈ targetOf v, h'.moved addr = h.moved addr)
    (gate : h'.anyMoved = h.anyMoved) : husk h' v = husk h v := by
  have mark : valueMoved h' v = valueMoved h v := by
    cases v with
    | str s =>
      cases s with
      | shared addr => exact moved addr rfl
      | frozenCopy addr buf => rfl
    | array addr | hash addr => exact moved addr rfl
    | object addr => simp only [valueMoved, object_congr body rfl]
    | _ => rfl
  unfold husk
  rw [gate, mark]

theorem exempt_congr (same : husk h' v = husk h v) : exempt h' v = exempt h v := by
  unfold exempt
  rw [same]
  cases v with
  | object addr => simp only [object_congr body rfl]
  | _ => rfl

end SameNode

def storedEdges (h : Heap im) : RubyValue → List RubyValue
  | .array addr => h.elems addr
  | .hash addr => pairValues h addr ++ (h.table addr).default :: (h.table addr).defaultProc.toList
  | .range addr => rangeEnds h addr
  | .object addr => (h.object addr).ivars.map (·.2) ++ (h.object addr).members ++
      (h.object addr).payload.toList
  | _ => []

theorem walkedEdges_stored {u e : RubyValue} (edge : e ∈ walkedEdges h u) :
    e ∈ storedEdges h u ∨ ∃ addr, u = .object addr ∧ e ∈ (h.object addr).listed.getD [] := by
  cases u with
  | array a | range a => exact .inl edge
  | hash a => exact .inl (mem_append_left _ edge)
  | object a =>
    change e ∈ ivarValues h a at edge
    unfold ivarValues at edge
    split at edge
    · cases edge
    · cases listed : (h.object a).listed with
      | none => exact .inl (mem_append_left _ (mem_append_left _ (by rwa [listed] at edge)))
      | some values => exact .inr ⟨a, rfl, by rwa [listed] at edge ⊢⟩
  | _ => cases edge

section

variable {h : Heap im} (formed : WellFormed h)

include formed

theorem storedEdges_inside (v : RubyValue) : ∀ e ∈ storedEdges h v, Inside h e := by
  intro e mem
  cases v with
  | array addr =>
    simp only [storedEdges, elems] at mem
    split at mem
    · rename_i found
      exact formed.inside addr _ found e mem
    · cases mem
  | range addr =>
    simp only [storedEdges, rangeEnds, Heap.range] at mem
    split at mem
    · rename_i found
      exact formed.inside addr _ found e mem
    · cases mem
  | hash addr =>
    cases there : h.body addr with
    | none =>
      simp only [storedEdges, pairValues, table, there] at mem
      rw [mem_singleton.mp mem]
      rintro _ ⟨⟩
    | some body =>
      cases body with
      | hash data =>
        simp only [storedEdges, pairValues, table, there] at mem
        exact formed.inside addr _ there e mem
      | _ =>
        simp only [storedEdges, pairValues, table, there] at mem
        rw [mem_singleton.mp mem]
        rintro _ ⟨⟩
  | object addr =>
    cases there : h.body addr with
    | none =>
      simp only [storedEdges, object, there] at mem
      cases mem
    | some body =>
      cases body with
      | object data =>
        simp only [storedEdges, object, there, append_assoc, mem_append] at mem
        refine formed.inside addr _ there e ?_
        simp only [Body.values, append_assoc, mem_append]
        exact mem.imp_right .inr
      | _ =>
        simp only [storedEdges, object, there] at mem
        cases mem
  | _ => cases mem

theorem walkedEdges_inside : ∀ e ∈ walkedEdges h v, Inside h e := by
  intro e edge
  rcases walkedEdges_stored edge with stored | ⟨addr, _, mem⟩
  · exact storedEdges_inside formed v e stored
  · unfold object at mem
    split at mem
    · rename_i found
      refine formed.inside addr _ found e (mem_append_left _ (mem_append_left _ ?_))
      exact mem_append_right _ mem
    · cases mem

theorem rangeEnds_older {a b : Addr} (edge : .range b ∈ rangeEnds h a) : b < a := by
  unfold rangeEnds Heap.range at edge
  split at edge
  · rename_i start finish excl found
    exact formed.older a start finish excl found b edge
  · cases edge

theorem rangeRank_falls {a : Addr} {e : RubyValue} (edge : e ∈ rangeEnds h a) :
    rangeRank e < rangeRank (.range a) := by
  cases e with
  | range b => exact Nat.succ_lt_succ (rangeEnds_older formed edge)
  | _ => exact Nat.succ_pos _

omit formed in
theorem mem_containers {ptr : RubyValue} (identity : containerIdentity v = some ptr)
    (inside : Inside h v) : v ∈ containers h := by
  unfold containers
  rw [mem_flatMap]
  cases v <;> cases identity
  all_goals exact ⟨_, mem_range.mpr (inside.lt_next rfl), by simp⟩

omit formed in
theorem rangeRank_le (inside : Inside h v) : rangeRank v ≤ h.next := by
  cases v with
  | range addr => exact inside.lt_next rfl
  | _ => exact Nat.zero_le _

/-- The test keeps to the heap, and guards all but ranges. -/
theorem shareWalker_bounded :
    (shareWalker h).Bounded (Inside h) (containers h) rangeRank h.next where
  closed v _ e edge := by
    change e ∈ testedEdges h v at edge
    unfold testedEdges at edge
    split at edge
    · cases edge
    · exact walkedEdges_inside formed e edge
  known v inside guarded := by
    obtain ⟨ptr, identity⟩ := Option.isSome_iff_exists.mp (Bool.and_eq_true_iff.mp guarded).2
    exact mem_containers identity inside
  rank_le _ inside := rangeRank_le inside
  falls v _ plain e edge := by
    change e ∈ testedEdges h v at edge
    unfold testedEdges at edge
    split at edge
    · cases edge
    · rename_i checked
      have live : husk h v = false := by simpa using checked
      cases v with
      | range addr => exact rangeRank_falls formed edge
      | array addr | hash addr | object addr => simp [shareWalker, live, containerIdentity] at plain
      | _ => cases edge

end

theorem need_le_depth {rank : Nat} (low : rank ≤ h.next) :
    need (containers h) [] h.next rank ≤ h.depth := by
  have few : unseen (containers h) [] = 3 * h.next := by
    simp [unseen, length_containers]
  unfold need depth
  rw [few]
  omega

/-- On any part of the heap that no edge leaves, the test answers whether every node it can reach
passes. -/
theorem shareable_iff_of_bounded {inside : RubyValue → Prop}
    (bounded : (shareWalker h).Bounded inside (containers h) rangeRank h.next)
    (within : inside v) : shareable h v = true ↔ ∀ u, Tested h v u → passes h u = true := by
  have same := walk_eq_verdict h h.depth v []
  constructor
  · intro answered u reach
    have settles : (shareWalker h).Settles fun _ u => passes h u = true := by
      refine ⟨fun v s s' acted => ?_, fun _ _ _ _ _ here => here⟩
      change (if passes h v then Except.ok () else Except.error ()) = _ at acted
      split at acted
      · assumption
      · cases acted
    have ended : ∃ seen, shareableGuarded h h.depth v [] = (true, seen) := by
      exact ⟨_, Prod.ext answered rfl⟩
    obtain ⟨seen, ended⟩ := ended
    rw [ended] at same
    exact walk_settles settles same reach
  · intro all
    have stays : ∀ u, Tested h v u → inside u := by
      intro u reach
      induction reach with
      | refl => exact within
      | tail _ edge ih => exact bounded.closed _ ih _ edge
    have reached : (shareWalker h).Bounded (Tested h v) (containers h) rangeRank h.next :=
      ⟨fun u reach e edge => reach.tail edge, fun u reach => bounded.known u (stays u reach),
        fun u reach => bounded.rank_le u (stays u reach),
        fun u reach => bounded.falls u (stays u reach)⟩
    have concludes := walk_concludes reached h.depth v ([], ()) .refl
      (need_le_depth (bounded.rank_le v within))
    rw [same] at concludes
    unfold shareable
    cases ended : shareableGuarded h h.depth v [] with
    | mk answer seen =>
      cases answer with
      | true => rfl
      | false =>
        rw [ended] at concludes
        obtain ⟨u, _, reach, refused⟩ := concludes
        change (if passes h u then Except.ok () else Except.error ()) = _ at refused
        rw [if_pos (all u reach)] at refused
        cases refused

theorem shareable_iff (formed : WellFormed h) (inside : Inside h v) :
    shareable h v = true ↔ ∀ u, Tested h v u → passes h u = true :=
  shareable_iff_of_bounded (shareWalker_bounded formed) inside

end Zeo.Ractor
