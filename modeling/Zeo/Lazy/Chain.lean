import Zeo.Lib.Transducer

/-!
# Lazy chains

`Enumerator::Lazy` keeps its source and a chain of links, and a terminal call drives the source's
values through the links one at a time (`push`), each link with a state of its own. A link that has
had enough answers `Stop`, which ends the drive before the next pull. A source that ends by itself
flushes the links, of which only `each_slice` holds anything worth emitting.

A link's arm of `push` is its `step`; the chain, the flush and the drive are those of
`Zeo.Lib.Transducer`. Blocks are pure functions. Each eager method is a function of lists.
-/

namespace Zeo.Lazy

open Zeo.Lib.Transducer List

/-- What the links read off Ruby values: `V` are the values, `K` the hash keys. -/
structure Values (V K : Type) where
  nil : V
  isNil : V → Bool
  truthy : V → Bool
  array : List V → V
  elements : V → Option (List V)
  int : BitVec 64 → V
  /-- `case_eq`: whether a pattern matches a value. -/
  caseEq : V → V → Bool
  hashKey : V → K

/-- `LazyOp`: one link of a chain, with its blocks. -/
inductive LazyOp (V : Type) where
  | map (block : V → V)
  /-- `flat_map`: an Array is spread, any other value flows on as it is. -/
  | flatMap (block : V → V)
  | filterMap (block : V → V)
  | select (block : V → V)
  | reject (block : V → V)
  | takeWhile (block : V → V)
  | dropWhile (block : V → V)
  | take (n : Nat)
  | drop (n : Nat)
  /-- `grep`, and `grep_v` with `invert`. -/
  | grep (pat : V) (invert : Bool) (block : Option (V → V))
  | uniq (key : Option (V → V))
  | compact
  /-- `with_index`: a block sees the value and its index, and the value flows on. -/
  | withIndex (offset : BitVec 64) (block : Option (V → V → V))
  /-- `each_cons`: every window of `n` consecutive values. -/
  | eachCons (n : Nat) (positive : 0 < n)
  /-- `each_slice`: consecutive runs of `n` values. -/
  | eachSlice (n : Nat) (positive : 0 < n)
  /-- The block of `Enumerator::Lazy.new`, by what it hands its yielder. -/
  | yielderBody (block : V → List V)
  | zip (others : List (List V))

variable {V K : Type} [DecidableEq K]

/-- `OpState`: what a link remembers during one run. -/
def OpState (K : Type) : LazyOp V → Type
  | .map _ | .flatMap _ | .filterMap _ | .select _ | .reject _ | .takeWhile _ => Unit
  | .grep .. | .compact | .yielderBody _ => Unit
  | .dropWhile _ => Bool
  | .take _ | .drop _ | .withIndex .. => Nat
  | .uniq _ => List K
  | .eachCons .. | .eachSlice .. => List V
  | .zip _ => Option (List (List V))

/-- `OpState::for_op`. -/
def forOp : (op : LazyOp V) → OpState K op
  | .map _ | .flatMap _ | .filterMap _ | .select _ | .reject _ | .takeWhile _ => ()
  | .grep .. | .compact | .yielderBody _ => ()
  | .dropWhile _ => true
  | .take _ | .drop _ | .withIndex .. => (0 : Nat)
  | .uniq _ => ([] : List K)
  | .eachCons .. | .eachSlice .. => ([] : List V)
  | .zip _ => (none : Option (List (List V)))

variable (vals : Values V K)

/-- What `flat_map` pushes on for its block's answer. -/
def spread (v : V) : List V :=
  match vals.elements v with
  | some elems => elems
  | none => [v]

/-- The pair `with_index` without a block makes of the value it has counted `i` values before. The
index is computed in the machine word. -/
def indexed (offset : BitVec 64) (i : Nat) (v : V) : V :=
  vals.array [v, vals.int (offset + BitVec.ofNat 64 i)]

/-- A link's arm of `push`: what it pushes on, its next state, whether it stops. -/
@[simp] def step : (op : LazyOp V) → OpState K op → V → Reaction (OpState K op) V
  | .map p, s, v => ⟨[p v], s, false⟩
  | .select p, s, v => ⟨if vals.truthy (p v) then [v] else [], s, false⟩
  | .reject p, s, v => ⟨if vals.truthy (p v) then [] else [v], s, false⟩
  | .filterMap p, s, v => ⟨if vals.truthy (p v) then [p v] else [], s, false⟩
  | .flatMap p, s, v => ⟨spread vals (p v), s, false⟩
  | .grep pat invert block, s, v =>
    ⟨if vals.caseEq pat v != invert then [block.elim v (· v)] else [], s, false⟩
  | .compact, s, v => ⟨if vals.isNil v then [] else [v], s, false⟩
  | .withIndex offset block, (c : Nat), v =>
    match block with
    | some _ => ⟨[v], (c + 1 : Nat), false⟩
    | none => ⟨[indexed vals offset c v], (c + 1 : Nat), false⟩
  | .takeWhile p, s, v => if vals.truthy (p v) then ⟨[v], s, false⟩ else ⟨[], s, true⟩
  | .dropWhile p, (dropping : Bool), v =>
    if dropping && vals.truthy (p v) then ⟨[], true, false⟩ else ⟨[v], false, false⟩
  | .take n, (c : Nat), v =>
    if n ≤ c then ⟨[], c, true⟩ else ⟨[v], (c + 1 : Nat), decide (n ≤ c + 1)⟩
  | .drop n, (c : Nat), v => if c < n then ⟨[], (c + 1 : Nat), false⟩ else ⟨[v], c, false⟩
  | .eachCons n _, (buf : List V), v =>
    if (buf ++ [v]).length < n then ⟨[], buf ++ [v], false⟩
    else ⟨[vals.array (buf ++ [v])], (buf ++ [v]).tail, false⟩
  | .eachSlice n _, (buf : List V), v =>
    if (buf ++ [v]).length < n then ⟨[], buf ++ [v], false⟩
    else ⟨[vals.array (buf ++ [v])], ([] : List V), false⟩
  | .uniq key, (seen : List K), v =>
    let hk := vals.hashKey (key.elim v (· v))
    if hk ∈ seen then ⟨[], seen, false⟩ else ⟨[v], hk :: seen, false⟩
  | .zip others, (iters : Option (List (List V))), v =>
    let iters := iters.getD others
    ⟨[vals.array (v :: iters.map (·.headD vals.nil))], some (iters.map List.tail), false⟩
  | .yielderBody p, s, v => ⟨p v, s, false⟩

/-- What `flush` pushes on of a link's state: the short run of an `each_slice`. -/
@[simp] def held : (op : LazyOp V) → OpState K op → List V
  | .eachSlice .., (buf : List V) => if buf.isEmpty then [] else [vals.array buf]
  | _, _ => []

/-- The state `flush` leaves a link in. -/
def drained : (op : LazyOp V) → OpState K op → OpState K op
  | .eachSlice .., _ => ([] : List V)
  | .map _, s | .flatMap _, s | .filterMap _, s | .select _, s | .reject _, s => s
  | .takeWhile _, s | .dropWhile _, s | .take _, s | .drop _, s | .grep .., s => s
  | .uniq _, s | .compact, s | .withIndex .., s | .eachCons .., s => s
  | .yielderBody _, s | .zip _, s => s

def links : Machine (LazyOp V) V where
  State := OpState K
  start := forOp
  step := step vals
  held := held vals
  drained := drained

/-- `force`: the whole chain into an unbounded buffer. -/
def force (chain : List (LazyOp V)) (source : List V) : List V :=
  ((links vals).drive chain source none).2.out

/-- `first(n)`: `Enumerable`'s row over the chain's `each`, whose block breaks out at the `n`-th
value. Nothing is driven for none. -/
def first (chain : List (LazyOp V)) (source : List V) (n : Nat) : List V :=
  if n = 0 then [] else ((links vals).drive chain source (some n)).2.out

/-- Every window of `n` consecutive elements. -/
def windows (n : Nat) (xs : List V) : List (List V) :=
  (List.range (xs.length + 1 - n)).map fun i => (xs.drop i).take n

/-- The runs of `n` elements from the front, the last one short if need be. -/
def slices (n : Nat) (xs : List V) : List (List V) :=
  (List.range ((xs.length + n - 1) / n)).map fun i => (xs.drop (i * n)).take n

/-- The full runs of `n` elements from the front. -/
def fullSlices (n : Nat) (xs : List V) : List (List V) :=
  (List.range (xs.length / n)).map fun i => (xs.drop (i * n)).take n

/-- The elements whose key is new: not in `seen`, nor an earlier element's. -/
def uniqFrom (key : V → K) : List K → List V → List V
  | _, [] => []
  | seen, x :: xs =>
    if key x ∈ seen then uniqFrom key seen xs else x :: uniqFrom key (key x :: seen) xs

@[simp] def eager : LazyOp V → List V → List V
  | .map p, xs => xs.map p
  | .flatMap p, xs => xs.flatMap fun x => spread vals (p x)
  | .filterMap p, xs => (xs.map p).filter vals.truthy
  | .select p, xs => xs.filter fun x => vals.truthy (p x)
  | .reject p, xs => xs.filter fun x => !vals.truthy (p x)
  | .takeWhile p, xs => xs.takeWhile fun x => vals.truthy (p x)
  | .dropWhile p, xs => xs.dropWhile fun x => vals.truthy (p x)
  | .take n, xs => xs.take n
  | .drop n, xs => xs.drop n
  | .grep pat invert block, xs =>
    (xs.filter fun x => vals.caseEq pat x != invert).map fun x => block.elim x (· x)
  | .uniq key, xs => uniqFrom (fun x => vals.hashKey (key.elim x (· x))) [] xs
  | .compact, xs => xs.filter fun x => !vals.isNil x
  | .withIndex offset none, xs => xs.mapIdx (indexed vals offset)
  | .withIndex _ (some _), xs => xs
  | .eachCons n _, xs => (windows n xs).map vals.array
  | .eachSlice n _, xs => (slices n xs).map vals.array
  | .yielderBody p, xs => xs.flatMap p
  | .zip others, xs =>
    xs.mapIdx fun i x => vals.array (x :: others.map fun o => o.getD i vals.nil)

/-- The eager methods one after the other. -/
def eagerly (chain : List (LazyOp V)) (source : List V) : List V :=
  chain.foldl (fun xs op => eager vals op xs) source

/-- An eager method, but for an `each_slice` that leaves its last short run out. -/
def shorn : LazyOp V → List V → List V
  | .eachSlice n _, xs => (fullSlices n xs).map vals.array
  | op, xs => eager vals op xs

def shornly (chain : List (LazyOp V)) (source : List V) : List V :=
  chain.foldl (fun xs op => shorn vals op xs) source

/-- Whether a link has had enough when these values have reached it: a `take` its number of them,
or a `take_while` one that fails its block. -/
def stops : LazyOp V → List V → Bool
  | .take n, xs => !xs.isEmpty && decide (n ≤ xs.length)
  | .takeWhile p, xs => xs.any fun x => !vals.truthy (p x)
  | _, _ => false

/-- Behind the first link that has had enough, the last short runs of the `each_slice` links make no
difference. -/
def Unbroken (vals : Values V K) : List (LazyOp V) → List V → Prop
  | [], _ => True
  | op :: behind, xs =>
    if stops vals op xs then
      shornly vals behind (eager vals op xs) = eagerly vals behind (eager vals op xs)
    else Unbroken vals behind (eager vals op xs)

variable {n : Nat}

theorem windows_cons {window xs : List V} (positive : 0 < n) (full : window.length = n) :
    windows n (window ++ xs) = window :: windows n (window.tail ++ xs) := by
  obtain ⟨w, ws, rfl⟩ : ∃ w ws, window = w :: ws :=
    exists_cons_of_length_pos (full ▸ positive)
  have count : (w :: ws ++ xs).length + 1 - n = (ws ++ xs).length + 1 - n + 1 := by
    simp only [length_append, length_cons] at full ⊢
    omega
  unfold windows
  rw [count, range_succ_eq_map, map_cons, map_map]
  congr 1
  rw [drop_zero, ← full, take_left]

theorem windows_short {xs : List V} (short : xs.length < n) : windows n xs = [] := by
  unfold windows
  rw [show xs.length + 1 - n = 0 by omega]
  rfl

theorem runs_append {run xs : List V} (full : run.length = n) (count : Nat) :
    ((List.range (count + 1)).map fun i => ((run ++ xs).drop (i * n)).take n) =
      run :: (List.range count).map fun i => (xs.drop (i * n)).take n := by
  rw [range_succ_eq_map, map_cons, map_map]
  congr 1
  · rw [Nat.zero_mul, drop_zero, ← full, take_left]
  · refine map_congr_left fun i _ => ?_
    change ((run ++ xs).drop ((i + 1) * n)).take n = _
    rw [Nat.succ_mul, Nat.add_comm, ← drop_drop, ← full, drop_left]

theorem slices_append {run xs : List V} (positive : 0 < n) (full : run.length = n) :
    slices n (run ++ xs) = run :: slices n xs := by
  have count : ((run ++ xs).length + n - 1) / n = (xs.length + n - 1) / n + 1 := by
    rw [length_append, ← Nat.add_div_right _ positive]
    congr 1
    omega
  rw [slices, count, runs_append full]
  rfl

theorem fullSlices_append {run xs : List V} (positive : 0 < n) (full : run.length = n) :
    fullSlices n (run ++ xs) = run :: fullSlices n xs := by
  have count : (run ++ xs).length / n = xs.length / n + 1 := by
    rw [length_append, full, Nat.add_comm, Nat.add_div_right _ positive]
  rw [fullSlices, count, runs_append full]
  rfl

theorem slices_short {xs : List V} (short : xs.length < n) :
    slices n xs = if xs.isEmpty then [] else [xs] := by
  unfold slices
  cases xs with
  | nil =>
    rw [length_nil, Nat.zero_add, Nat.div_eq_of_lt (Nat.sub_lt (by omega) Nat.one_pos)]
    rfl
  | cons x xs =>
    have one : ((x :: xs).length + n - 1) / n = 1 := by
      rw [length_cons, Nat.div_eq_iff (by omega)]
      rw [length_cons] at short
      omega
    rw [one]
    change [((x :: xs).drop (0 * n)).take n] = [x :: xs]
    rw [Nat.zero_mul, drop_zero, take_of_length_le (Nat.le_of_lt short)]

/-- What a link makes of the input to come, from the state it is in. -/
@[simp] def rest : (op : LazyOp V) → OpState K op → List V → List V
  | .dropWhile p, (dropping : Bool), xs =>
    if dropping then xs.dropWhile fun x => vals.truthy (p x) else xs
  | .take n, (c : Nat), xs => xs.take (n - c)
  | .drop n, (c : Nat), xs => xs.drop (n - c)
  | .withIndex offset none, (c : Nat), xs => xs.mapIdx fun i => indexed vals offset (c + i)
  | .withIndex _ (some _), _, xs => xs
  | .uniq key, (seen : List K), xs =>
    uniqFrom (fun x => vals.hashKey (key.elim x (· x))) seen xs
  | .eachCons n _, (buf : List V), xs => (windows n (buf ++ xs)).map vals.array
  | .eachSlice n _, (buf : List V), xs => (slices n (buf ++ xs)).map vals.array
  | .zip others, (iters : Option (List (List V))), xs =>
    xs.mapIdx fun i x =>
      vals.array (x :: (iters.getD others).map fun o => o.getD i vals.nil)
  | op, _, xs => eager vals op xs

/-- The states a run can bring a link to: a window or run is never full. -/
def Valid : (op : LazyOp V) → OpState K op → Prop
  | .eachCons n _, (buf : List V) => buf.length < n
  | .eachSlice n _, (buf : List V) => buf.length < n
  | _, _ => True

variable (vals : Values V K)

theorem rest_start (op : LazyOp V) (xs : List V) :
    rest vals op (forOp op) xs = eager vals op xs := by
  cases op with
  | withIndex offset block =>
    cases block with
    | none =>
      change xs.mapIdx (fun i => indexed vals offset (0 + i)) = xs.mapIdx (indexed vals offset)
      simp only [Nat.zero_add]
    | some block => rfl
  | _ => rfl

theorem length_full {buf : List V} {v : V} (valid : buf.length < n)
    (full : ¬(buf ++ [v]).length < n) : (buf ++ [v]).length = n := by
  rw [length_append, length_singleton] at full ⊢
  omega

theorem dropWhile_goes (p : V → V) (dropping : Bool) (v : V) (more : List V) :
    rest vals (.dropWhile p) dropping (v :: more) =
      (step vals (.dropWhile p) dropping v).outs ++
        rest vals (.dropWhile p) (step vals (.dropWhile p) dropping v).next more := by
  cases dropping with
  | true =>
    by_cases holds : vals.truthy (p v) = true
    · simp [holds]
    · simp [holds]
  | false => rfl

section

variable (n c : Nat) (v : V) (more : List V)

theorem take_goes (goesOn : (step vals (.take n) c v).stop = false) :
    rest vals (.take n) c (v :: more) = (step vals (.take n) c v).outs ++
      rest vals (.take n) (step vals (.take n) c v).next more := by
  simp only [rest, step] at goesOn ⊢
  by_cases done : n ≤ c
  · simp only [if_pos done] at goesOn
    exact absurd goesOn (by decide)
  · simp only [if_neg done]
    rw [show n - c = n - (c + 1) + 1 by omega]
    rfl

theorem take_stops (halted : (step vals (.take n) c v).stop = true) :
    rest vals (.take n) c (v :: more) = (step vals (.take n) c v).outs := by
  simp only [rest, step] at halted ⊢
  by_cases done : n ≤ c
  · simp only [if_pos done]
    rw [Nat.sub_eq_zero_of_le done]
    rfl
  · simp only [if_neg done, decide_eq_true_eq] at halted ⊢
    rw [show n - c = 1 by omega]
    rfl

theorem drop_goes :
    rest vals (.drop n) c (v :: more) = (step vals (.drop n) c v).outs ++
      rest vals (.drop n) (step vals (.drop n) c v).next more := by
  simp only [rest, step]
  by_cases skips : c < n
  · simp only [if_pos skips]
    rw [show n - c = n - (c + 1) + 1 by omega]
    rfl
  · simp only [if_neg skips]
    rw [show n - c = 0 by omega]
    rfl

end

theorem withIndex_goes (offset : BitVec 64) (c : Nat) (v : V) (more : List V) :
    rest vals (.withIndex offset none) c (v :: more) =
      (step vals (.withIndex offset none) c v).outs ++
        rest vals (.withIndex offset none) (step vals (.withIndex offset none) c v).next more := by
  simp only [rest, step, mapIdx_cons, Nat.add_zero, singleton_append]
  simp only [Nat.add_assoc, Nat.add_comm 1]

theorem uniq_goes (key : Option (V → V)) (seen : List K) (v : V) (more : List V) :
    rest vals (.uniq key) seen (v :: more) = (step vals (.uniq key) seen v).outs ++
      rest vals (.uniq key) (step vals (.uniq key) seen v).next more := by
  by_cases known : vals.hashKey (key.elim v (· v)) ∈ seen
  · simp only [rest, step, uniqFrom, if_pos known, nil_append]
  · simp only [rest, step, uniqFrom, if_neg known, singleton_append]

section

variable (n : Nat) (positive : 0 < n) (buf : List V)

theorem eachCons_goes (v : V) (more : List V) (valid : buf.length < n) :
    rest vals (.eachCons n positive) buf (v :: more) =
      (step vals (.eachCons n positive) buf v).outs ++
        rest vals (.eachCons n positive) (step vals (.eachCons n positive) buf v).next more := by
  simp only [rest, step]
  rw [append_cons]
  by_cases short : (buf ++ [v]).length < n
  · simp only [if_pos short, nil_append]
  · simp only [if_neg short]
    rw [windows_cons positive (length_full valid short)]
    rfl

theorem eachSlice_goes (v : V) (more : List V) (valid : buf.length < n) :
    rest vals (.eachSlice n positive) buf (v :: more) =
      (step vals (.eachSlice n positive) buf v).outs ++
        rest vals (.eachSlice n positive) (step vals (.eachSlice n positive) buf v).next more := by
  simp only [rest, step]
  rw [append_cons]
  by_cases short : (buf ++ [v]).length < n
  · simp only [if_pos short, nil_append]
  · simp only [if_neg short]
    rw [slices_append positive (length_full valid short)]
    rfl

theorem eachCons_ends (valid : buf.length < n) :
    rest vals (.eachCons n positive) buf [] = [] := by
  simp only [rest, append_nil, windows_short valid, map_nil]

theorem eachSlice_ends (valid : buf.length < n) :
    rest vals (.eachSlice n positive) buf [] = held vals (.eachSlice n positive) buf := by
  simp only [rest, held, append_nil, slices_short valid]
  split <;> rfl

end

theorem zip_goes (others : List (List V)) (iters : Option (List (List V))) (v : V) (more : List V) :
    rest vals (.zip others) iters (v :: more) = (step vals (.zip others) iters v).outs ++
      rest vals (.zip others) (step vals (.zip others) iters v).next more := by
  have headEq : ∀ o : List V, o.getD 0 vals.nil = o.headD vals.nil := fun o => by
    cases o <;> rfl
  have tailEq : ∀ (o : List V) i, o.getD (i + 1) vals.nil = o.tail.getD i vals.nil :=
    fun o i => by cases o <;> rfl
  simp only [rest, step, mapIdx_cons, Option.getD_some, map_map, singleton_append,
    Function.comp_def, headEq, tailEq]

section

variable (op : LazyOp V) (s : OpState K op) (v : V)

theorem rest_goes (more : List V) (valid : Valid op s) (goesOn : (step vals op s v).stop = false) :
    rest vals op s (v :: more) =
      (step vals op s v).outs ++ rest vals op (step vals op s v).next more := by
  cases op with
  | map p | flatMap p | yielderBody p => rfl
  | select p | grep pat invert block =>
    simp only [rest, eager, step, filter_cons]
    split <;> rfl
  | reject p =>
    simp only [rest, eager, step, filter_cons]
    cases vals.truthy (p v) <;> rfl
  | filterMap p =>
    simp only [rest, eager, step, map_cons, filter_cons]
    split <;> rfl
  | compact =>
    simp only [rest, eager, step, filter_cons]
    cases vals.isNil v <;> rfl
  | takeWhile p =>
    simp only [rest, eager, step, takeWhile_cons] at goesOn ⊢
    by_cases holds : vals.truthy (p v) = true
    · simp only [if_pos holds]
      rfl
    · simp only [if_neg holds] at goesOn
      exact absurd goesOn (by decide)
  | dropWhile p => exact dropWhile_goes vals p s v more
  | take n => exact take_goes vals n s v more goesOn
  | drop n => exact drop_goes vals n s v more
  | withIndex offset block =>
    cases block with
    | none => exact withIndex_goes vals offset s v more
    | some block => rfl
  | uniq key => exact uniq_goes vals key s v more
  | eachCons n positive => exact eachCons_goes vals n positive s v more valid
  | eachSlice n positive => exact eachSlice_goes vals n positive s v more valid
  | zip others => exact zip_goes vals others s v more

theorem rest_stops (more : List V) (halted : (step vals op s v).stop = true) :
    rest vals op s (v :: more) = (step vals op s v).outs := by
  cases op with
  | takeWhile p =>
    simp only [rest, eager, step, takeWhile_cons] at halted ⊢
    by_cases holds : vals.truthy (p v) = true
    · simp only [if_pos holds] at halted
      exact absurd halted (by decide)
    · simp only [if_neg holds]
  | take n => exact take_stops vals n s v more halted
  | withIndex offset block =>
    cases block with
    | none | some block => exact absurd halted Bool.false_ne_true
  | dropWhile p | drop n | uniq key | eachCons n positive | eachSlice n positive =>
    simp only [step] at halted
    split at halted <;> exact absurd halted Bool.false_ne_true
  | _ => exact absurd halted Bool.false_ne_true

theorem valid_step (valid : Valid op s) :
    Valid op (step vals op s v).next := by
  cases op with
  | eachCons n positive =>
    simp only [step]
    split
    · assumption
    · rename_i full
      have length := length_full valid full
      change (_ : List V).tail.length < n
      rw [length_tail, length]
      exact Nat.sub_lt positive Nat.one_pos
  | eachSlice n positive =>
    simp only [step]
    split
    · assumption
    · exact positive
  | _ => trivial

end

theorem links_compute :
    (links vals).Computes (rest vals) (fun op s => Valid op s) where
  start op := by
    cases op with
    | eachCons n positive | eachSlice n positive => exact positive
    | _ => trivial
  step := valid_step vals
  atEnd op s valid := by
    cases op with
    | withIndex offset block => cases block <;> rfl
    | dropWhile p => cases s <;> rfl
    | eachCons n positive => exact eachCons_ends vals n positive s valid
    | eachSlice n positive => exact eachSlice_ends vals n positive s valid
    | take n => exact take_nil
    | drop n => exact drop_nil
    | _ => rfl
  goes op s v more valid := rest_goes vals op s v more valid
  stops op s v more _ := rest_stops vals op s v more

theorem halts_cons (op : LazyOp V) (s : OpState K op) (v : V) (vs : List V) :
    (links vals).halts op s (v :: vs) =
      ((step vals op s v).stop || (links vals).halts op (step vals op s v).next vs) := rfl

theorem halts_never {op : LazyOp V} (never : ∀ (s : OpState K op) v, (step vals op s v).stop = false)
    (s : OpState K op) (xs : List V) : (links vals).halts op s xs = false := by
  induction xs generalizing s with
  | nil => rfl
  | cons x xs ih =>
    rw [halts_cons, never s x, Bool.false_or]
    exact ih _

theorem take_halts (n c : Nat) (xs : List V) :
    (links vals).halts (.take n) c xs = (!xs.isEmpty && decide (n ≤ c + xs.length)) := by
  induction xs generalizing c with
  | nil => rfl
  | cons x xs ih =>
    refine (halts_cons vals (.take n) c x xs).trans ?_
    by_cases done : n ≤ c
    · have stepped : step vals (.take n) c x = ⟨[], c, true⟩ := by
        simp only [step, if_pos done]
      have enough : n ≤ c + (x :: xs).length := Nat.le_add_right_of_le done
      rw [stepped, decide_eq_true enough]
      rfl
    · have stepped : step vals (.take n) c x = ⟨[x], (c + 1 : Nat), decide (n ≤ c + 1)⟩ := by
        simp only [step, if_neg done]
      rw [stepped]
      refine (congrArg (decide (n ≤ c + 1) || ·) (ih (c + 1))).trans ?_
      rw [Bool.eq_iff_iff]
      cases xs with
      | nil => simp
      | cons y ys =>
        simp only [isEmpty_cons, Bool.not_false, Bool.true_and, Bool.or_eq_true, decide_eq_true_eq,
          length_cons]
        omega

theorem takeWhile_halts (p : V → V) (xs : List V) :
    (links vals).halts (.takeWhile p) () xs = xs.any fun x => !vals.truthy (p x) := by
  induction xs with
  | nil => rfl
  | cons x xs ih =>
    refine (halts_cons vals (.takeWhile p) () x xs).trans ?_
    rw [any_cons, ← ih]
    cases holds : vals.truthy (p x) <;> simp [holds]

/-- The run of a link stops where the values that reach it are enough for it. -/
theorem halts_eq (op : LazyOp V) (xs : List V) :
    (links vals).halts op (forOp op) xs = stops vals op xs := by
  cases op with
  | take n =>
    have counted := take_halts vals n 0 xs
    rwa [Nat.zero_add] at counted
  | takeWhile p => exact takeWhile_halts vals p xs
  | withIndex offset block =>
    apply halts_never
    intro s v
    cases block <;> rfl
  | dropWhile p | drop n | uniq key | eachCons n positive | eachSlice n positive =>
    apply halts_never
    intro s v
    simp only [step]
    split <;> rfl
  | _ => exact halts_never vals (fun _ _ => rfl) _ xs

theorem eachSlice_emits (n : Nat) (positive : 0 < n) (buf xs : List V) (valid : buf.length < n) :
    (links vals).emits (.eachSlice n positive) buf xs =
      (fullSlices n (buf ++ xs)).map vals.array := by
  induction xs generalizing buf with
  | nil =>
    rw [append_nil, fullSlices, Nat.div_eq_of_lt valid]
    rfl
  | cons x xs ih =>
    have emitted : (links vals).emits (.eachSlice n positive) buf (x :: xs) =
        (step vals (.eachSlice n positive) buf x).outs ++
          if (step vals (.eachSlice n positive) buf x).stop then []
          else (links vals).emits (.eachSlice n positive)
            (step vals (.eachSlice n positive) buf x).next xs := rfl
    rw [append_cons, emitted]
    by_cases short : (buf ++ [x]).length < n
    · have stepped : step vals (.eachSlice n positive) buf x = ⟨[], buf ++ [x], false⟩ := by
        simp only [step, if_pos short]
      rw [stepped]
      exact ih (buf ++ [x]) short
    · have stepped : step vals (.eachSlice n positive) buf x =
          ⟨[vals.array (buf ++ [x])], ([] : List V), false⟩ := by
        simp only [step, if_neg short]
      rw [stepped, fullSlices_append positive (length_full valid short)]
      exact congrArg (vals.array (buf ++ [x]) :: ·) (ih [] positive)

/-- What a link lets through before any flush. -/
theorem emits_eq (op : LazyOp V) (xs : List V) :
    (links vals).emits op (forOp op) xs = shorn vals op xs := by
  have computed := (links_compute vals).rest_eq op (forOp op) ((links_compute vals).start op) xs
  rw [rest_start] at computed
  cases op with
  | eachSlice n positive => exact eachSlice_emits vals n positive [] xs positive
  | _ =>
    refine Eq.trans ?_ computed.symm
    change _ = _ ++ if _ then [] else []
    rw [ite_self, append_nil]

theorem fed_eq (chain : List (LazyOp V)) (source : List V) :
    (links vals).fed chain source = shornly vals chain source := by
  induction chain generalizing source with
  | nil => exact (links vals).fed_nil source
  | cons op chain ih =>
    rw [Machine.fed_cons, ih]
    exact congrArg (shornly vals chain) (emits_eq vals op source)

/-- Forcing a chain is an eager method as far as the first link that has had enough, and from there
on one that leaves the last short runs out. -/
theorem force_cons (op : LazyOp V) (behind : List (LazyOp V)) (source : List V) :
    force vals (op :: behind) source =
      if stops vals op source then shornly vals behind (eager vals op source)
      else force vals behind (eager vals op source) := by
  have driven := Machine.drive_cons (links_compute vals) op behind source
  have computed : rest vals op ((links vals).start op) source = eager vals op source :=
    rest_start vals op source
  have halted : (links vals).halts op ((links vals).start op) source = stops vals op source :=
    halts_eq vals op source
  rw [computed, halted, fed_eq] at driven
  exact driven

theorem first_force (chain : List (LazyOp V)) (source : List V) (n : Nat) :
    first vals chain source n = (force vals chain source).take n := by
  unfold first
  split
  · rename_i none
    rw [none, take_zero]
  · rename_i some_
    exact Machine.drive_take (links vals) chain source (Nat.pos_of_ne_zero some_)

theorem force_eq_iff (chain : List (LazyOp V)) (source : List V) :
    force vals chain source = eagerly vals chain source ↔ Unbroken vals chain source := by
  induction chain generalizing source with
  | nil => exact iff_of_true ((links vals).drive_nil source) trivial
  | cons op behind ih =>
    rw [force_cons]
    change _ = eagerly vals behind (eager vals op source) ↔ if _ then _ else _
    split
    · exact Iff.rfl
    · exact ih (eager vals op source)

inductive Sample where
  | nil
  | int (n : BitVec 64)
  | array (elems : List Sample)

/-- Their operations: no pattern matches, and all values share one key. -/
def samples : Values Sample Unit where
  nil := .nil
  isNil
    | .nil => true
    | _ => false
  truthy
    | .nil => false
    | _ => true
  array := .array
  elements
    | .array elems => some elems
    | _ => none
  int := .int
  caseEq _ _ := false
  hashKey _ := ()

end Zeo.Lazy
