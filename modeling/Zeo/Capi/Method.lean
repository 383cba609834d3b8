import Zeo.Capi.Params
import Zeo.Value.HashRun

/-!
# The method binder

The binder of a dynamic method call splits off the keywords, checks the number of positionals
that remain, and fills the slots of the callee in order. It succeeds exactly on the calls the
descriptor accepts, and then every slot is the place of what the descriptor declares for it.
-/

namespace Zeo.Capi

open Zeo.Enc Zeo.Lib Zeo.Value List SlotWriter SlotValue ParamDesc

section Method

variable {eql : UserEql} {im : ValueMap eql}
variable (lossy : EncodingId → List UInt8 → String) (tables : Addr → RHashData im)

def requiredNames (kws : List KwParam) : List String := (kws.filter (·.required)).map (·.name)

def optionalNames (kws : List KwParam) : List String := (kws.filter (!·.required)).map (·.name)

variable (desc : ParamDesc)

/-- The keyword split of `bind`. -/
def splitKeywords (args : List RubyValue) : Except String BoundKwargs :=
  if desc.noKeywords then do
    rejectMarkedKwargs tables args
    .ok ⟨args, [], [], []⟩
  else if desc.kws ≠ [] ∨ desc.kwrest ≠ .none then
    bindDynamicKwargs lossy tables desc.name args (requiredNames desc.kws)
      (optionalNames desc.kws) (desc.kwrest ≠ .none)
  else .ok ⟨args, [], [], []⟩

def checkArity (given : Nat) (hasRest : Bool) : Except String Unit :=
  if given < desc.min || (!hasRest && desc.max < given) then
    .error (wrongArity given (expectedArity desc hasRest))
  else .ok ()

/-- The keyword loop of `bind`: required and optional values are consumed in declared order. -/
def fillKeywords (w : SlotWriter SlotValue) :
    List KwParam → List RubyValue → List (Option RubyValue) → SlotWriter SlotValue
  | [], _, _ => w
  | kw :: kws, required, optional =>
    if kw.required then
      fillKeywords (w.fill (.value (required.headD .nil))) kws required.tail optional
    else
      fillKeywords (w.write ((optional.headD none).map .value)) kws required optional.tail

/-- The routing of `bind`, after the arity check. -/
def route (bound : BoundKwargs) : SlotWriter SlotValue :=
  let positional := bound.positional
  let count := positional.length
  let optBound := Nat.min (count - desc.min) desc.nopt
  let w := SlotWriter.start empty desc.slotCount
  let w := (positional.take desc.nreq).foldl (fun w v => w.fill (.value v)) w
  let w := (List.range desc.nopt).foldl
    (fun w i =>
      if i < optBound then w.fill (.value (positional.getD (desc.nreq + i) .nil)) else w.skip) w
  let w := match desc.rest with
    | .named => w.fill (.array ((positional.take (count - desc.npost)).drop (desc.nreq + optBound)))
    | .anon | .none => w
  let w := (positional.drop (count - desc.npost)).foldl (fun w v => w.fill (.value v)) w
  let w := fillKeywords w desc.kws bound.required bound.optional
  match desc.kwrest with
  | .named => w.fill (.hash bound.rest)
  | .anon | .none => w

def bind (args : List RubyValue) : Except String (SlotWriter SlotValue) := do
  let bound ← splitKeywords lossy tables desc args
  checkArity desc bound.positional.length (desc.rest ≠ .none)
  .ok (route desc bound)

/-- Whether the callee has a say in keywords: it declares some, takes the rest, or refuses them
all. Any other callee takes a keyword hash as a positional. -/
def ParamDesc.takesKeywords : Bool :=
  desc.noKeywords || desc.kws ≠ [] || desc.kwrest ≠ .none

def keywordPairs (args : List RubyValue) : Pairs :=
  if desc.takesKeywords then ((markedHash tables args).map hashPairsSnapshot).getD [] else []

def positionals (args : List RubyValue) : List RubyValue :=
  if desc.takesKeywords && (markedHash tables args).isSome then args.dropLast else args

structure Accepts (desc : ParamDesc) (positional : List RubyValue) (given : Pairs) : Prop where
  enough : desc.min ≤ positional.length
  notMore : desc.rest = .none → positional.length ≤ desc.max
  required : ∀ kw ∈ desc.kws, kw.required = true →
    ∃ pair ∈ given, keyName lossy pair.1 = some kw.name
  known : desc.kwrest = .none → ∀ pair ∈ given, declared lossy desc.kwNames pair.1 = true

/-- How many optionals the positionals reach. -/
def ParamDesc.optBound (count : Nat) : Nat := Nat.min (count - desc.min) desc.nopt

def Star.entry (star : Star) (value : SlotValue) : List (Option SlotValue) :=
  match star with
  | .named => [some value]
  | .anon | .none => []

theorem Star.entry_length (star : Star) (value : SlotValue) :
    (star.entry value).length = star.slots := by
  cases star <;> rfl

def undeclaredPairs (given : Pairs) : Pairs :=
  given.filter fun pair => !declared lossy desc.kwNames pair.1

def placement (positional : List RubyValue) (given : Pairs) : List (Option SlotValue) :=
  let optBound := desc.optBound positional.length
  let upToPost := positional.take (positional.length - desc.npost)
  (positional.take desc.nreq).map (some ∘ value) ++
    (((upToPost.drop desc.nreq).take optBound).map (some ∘ value) ++
      List.replicate (desc.nopt - optBound) none) ++
    desc.rest.entry (.array (upToPost.drop (desc.nreq + optBound))) ++
    (positional.drop (positional.length - desc.npost)).map (some ∘ value) ++
    desc.kws.map (fun kw => (lookupName lossy given kw.name).map value) ++
    desc.kwrest.entry (.hash (undeclaredPairs lossy desc given))

theorem lookupName_isSome (given : Pairs) (name : String) :
    (lookupName lossy given name).isSome = true ↔
      ∃ pair ∈ given, keyName lossy pair.1 = some name := by
  simp [lookupName]

theorem sortPairs_ok_iff (method : String) (names : List String) (hasKwrest : Bool)
    (given rest : Pairs) :
    sortPairs lossy method names hasKwrest given = .ok (rest, []) ↔
      given.filter (fun pair => !declared lossy names pair.1) = rest ∧
        (hasKwrest = false → ∀ pair ∈ given, declared lossy names pair.1 = true) := by
  induction given generalizing rest with
  | nil => simp [sortPairs]
  | cons pair later ih =>
    obtain ⟨key, value⟩ := pair
    cases text : keyName lossy key with
    | none =>
      have here : declared lossy names key = false := by simp only [declared, text]
      cases hasKwrest <;> simp [sortPairs, text, here, except_bind_ok_iff, ih]
    | some name =>
      by_cases known : name ∈ names
      · have here : declared lossy names key = true := by simp [declared, text, known]
        simp [sortPairs, text, known, here, ih]
      · have here : declared lossy names key = false := by simp [declared, text, known]
        cases hasKwrest <;> simp [sortPairs, text, known, here, except_bind_ok_iff, ih]

theorem fillKeywords_eq (w : SlotWriter SlotValue) {kws : List KwParam}
    {find : String → Option RubyValue}
    (given : ∀ kw ∈ kws, kw.required = true → (find kw.name).isSome = true) :
    fillKeywords w kws ((requiredNames kws).filterMap find) ((optionalNames kws).map find) =
      w.writeAll (kws.map fun kw => (find kw.name).map value) := by
  induction kws generalizing w with
  | nil => rfl
  | cons kw kws ih =>
    have later := fun w => ih w (fun other mem => given other (mem_cons_of_mem _ mem))
    cases required : kw.required with
    | true =>
      obtain ⟨value, found⟩ := Option.isSome_iff_exists.mp (given kw mem_cons_self required)
      have names : (requiredNames (kw :: kws)).filterMap find =
          value :: (requiredNames kws).filterMap find := by
        simp [requiredNames, required, found]
      have others : optionalNames (kw :: kws) = optionalNames kws := by
        simp [optionalNames, required]
      simp [fillKeywords, required, names, others, later, found, write]
    | false =>
      have names : requiredNames (kw :: kws) = requiredNames kws := by
        simp [requiredNames, required]
      have others : optionalNames (kw :: kws) = kw.name :: optionalNames kws := by
        simp [optionalNames, required]
      simp [fillKeywords, required, names, others, later]

variable {positional : List RubyValue}

theorem optionalLoop_eq (w : SlotWriter SlotValue) {nopt bound offset : Nat} (within : bound ≤ nopt)
    (reach : offset + bound ≤ positional.length) :
    (List.range nopt).foldl
      (fun w i =>
        if i < bound then w.fill (.value (positional.getD (offset + i) .nil)) else w.skip) w =
      w.writeAll (((positional.drop offset).take bound).map (some ∘ value) ++
        List.replicate (nopt - bound) none) := by
  have entries : ((positional.drop offset).take bound).map (some ∘ value) ++
      List.replicate (nopt - bound) none =
      (List.range nopt).map fun i =>
        if i < bound then some (.value (positional.getD (offset + i) .nil)) else none := by
    apply ext_getElem
    · simp; omega
    · intro i left right
      by_cases reached : i < bound
      · have there : offset + i < positional.length := by omega
        rw [getElem_append_left (by simp; omega)]
        simp [reached, there]
      · rw [getElem_append_right (by simp; omega)]
        simp [reached]
  rw [entries, writeAll, foldl_map]
  congr 1
  funext w i
  by_cases reached : i < bound <;> simp [reached, write]

variable (desc : ParamDesc)

theorem ParamDesc.optBound_le (count : Nat) :
    desc.optBound count ≤ desc.nopt ∧ desc.optBound count ≤ count - desc.min :=
  ⟨Nat.min_le_right _ _, Nat.min_le_left _ _⟩

variable (desc : ParamDesc)

theorem route_eq (positional : List RubyValue)
    (given : Pairs) (enough : desc.min ≤ positional.length)
    (keywords : ∀ kw ∈ desc.kws, kw.required = true →
      (lookupName lossy given kw.name).isSome = true) :
    route desc ⟨positional, (requiredNames desc.kws).filterMap (lookupName lossy given),
      (optionalNames desc.kws).map (lookupName lossy given), undeclaredPairs lossy desc given⟩ =
      (start empty desc.slotCount).writeAll
        (placement lossy desc positional given) := by
  obtain ⟨bound, extra⟩ := desc.optBound_le positional.length
  have split : desc.min = desc.nreq + desc.npost := rfl
  have optionals : ((positional.take (positional.length - desc.npost)).drop desc.nreq).take
      (desc.optBound positional.length) =
      (positional.drop desc.nreq).take (desc.optBound positional.length) := by
    rw [drop_take, take_take, Nat.min_eq_left (by omega)]
  have fills : ∀ (w : SlotWriter SlotValue) (values : List RubyValue),
      values.foldl (fun w v => w.fill (.value v)) w =
        w.writeAll (values.map (some ∘ .value)) := by
    intro w values
    rw [← map_map, ← foldl_fill, foldl_map]
  simp only [route, placement, writeAll_append]
  rw [fills, optionals, fills, fillKeywords_eq _ keywords]
  rw [show Nat.min (positional.length - desc.min) desc.nopt = desc.optBound positional.length from rfl,
    optionalLoop_eq _ bound (by omega), writeAll_append]
  cases desc.rest <;> cases desc.kwrest <;> rfl

theorem declared_names (kws : List KwParam) (key : RubyValue) :
    declared lossy (requiredNames kws ++ optionalNames kws) key =
      declared lossy (kws.map (·.name)) key := by
  cases text : keyName lossy key with
  | none => simp only [declared, text]
  | some name =>
    simp only [declared, text]
    rw [Bool.eq_iff_iff, contains_iff_mem, contains_iff_mem, mem_append]
    simp only [requiredNames, optionalNames, mem_map, mem_filter]
    constructor
    · rintro (⟨kw, ⟨mem, -⟩, rfl⟩ | ⟨kw, ⟨mem, -⟩, rfl⟩) <;> exact ⟨kw, mem, rfl⟩
    · rintro ⟨kw, mem, rfl⟩
      cases required : kw.required with
      | true => exact .inl ⟨kw, ⟨mem, required⟩, rfl⟩
      | false => exact .inr ⟨kw, ⟨mem, by simp [required]⟩, rfl⟩

/-- The keywords a call must give and those it may give. -/
structure KeywordsFit (desc : ParamDesc) (given : Pairs) : Prop where
  required : ∀ kw ∈ desc.kws, kw.required = true → (lookupName lossy given kw.name).isSome = true
  known : desc.kwrest = .none → ∀ pair ∈ given, declared lossy desc.kwNames pair.1 = true

def boundKwargs (args : List RubyValue) : BoundKwargs :=
  ⟨positionals tables desc args,
    (requiredNames desc.kws).filterMap (lookupName lossy (keywordPairs tables desc args)),
    (optionalNames desc.kws).map (lookupName lossy (keywordPairs tables desc args)),
    undeclaredPairs lossy desc (keywordPairs tables desc args)⟩

theorem missing_eq_nil_iff (kws : List KwParam) (find : String → Option RubyValue) :
    (requiredNames kws).filter (fun name => (find name).isNone) = [] ↔
      ∀ kw ∈ kws, kw.required = true → (find kw.name).isSome = true := by
  rw [requiredNames, filter_map, map_eq_nil_iff, filter_eq_nil_iff]
  simp [Option.isSome_iff_ne_none]

theorem bindDynamicKwargs_ok_iff (args : List RubyValue) (bound : BoundKwargs)
    (takes : desc.kws ≠ [] ∨ desc.kwrest ≠ .none) :
    bindDynamicKwargs lossy tables desc.name args (requiredNames desc.kws)
        (optionalNames desc.kws) (desc.kwrest ≠ .none) = .ok bound ↔
      KeywordsFit lossy desc (keywordPairs tables desc args) ∧
        bound = boundKwargs lossy tables desc args := by
  have voiced : desc.takesKeywords = true := by
    rcases takes with some | some <;> simp [takesKeywords, some]
  have pairs : ((markedHash tables args).map hashPairsSnapshot).getD [] =
      keywordPairs tables desc args := by simp [keywordPairs, voiced]
  have positional : (if (markedHash tables args).isSome then args.dropLast else args) =
      positionals tables desc args := by simp [positionals, voiced]
  have names : ∀ key, declared lossy (requiredNames desc.kws ++ optionalNames desc.kws) key =
      declared lossy desc.kwNames key := declared_names lossy desc.kws
  have sorted := sortPairs_ok_iff lossy desc.name (requiredNames desc.kws ++ optionalNames desc.kws)
    (desc.kwrest ≠ .none) (keywordPairs tables desc args)
  simp only [names] at sorted
  simp only [bindDynamicKwargs, pairs, positional]
  by_cases required : ∀ kw ∈ desc.kws, kw.required = true →
      (lookupName lossy (keywordPairs tables desc args) kw.name).isSome = true
  · rw [if_neg (not_not.mpr ((missing_eq_nil_iff _ _).mpr required)), except_bind_ok_iff]
    constructor
    · rintro ⟨⟨rest, unknown⟩, result, done⟩
      by_cases none : unknown = []
      · subst none
        obtain ⟨rfl, known⟩ := (sorted rest).mp result
        cases done
        exact ⟨⟨required, fun none => known (by simp [none])⟩, rfl⟩
      · simp [none] at done
    · rintro ⟨fit, rfl⟩
      exact ⟨(undeclaredPairs lossy desc (keywordPairs tables desc args), []),
        (sorted _).mpr ⟨rfl, fun none => fit.known (by simpa using none)⟩, rfl⟩
  · rw [if_pos (mt (missing_eq_nil_iff _ _).mp required)]
    exact ⟨fun error => (nomatch error), fun fit => absurd fit.1.required required⟩

variable {args : List RubyValue}

theorem splitKeywords_ok_iff {desc : ParamDesc} (bound : BoundKwargs)
    (written : desc.noKeywords = true →
      ∀ h, markedHash tables args = some h → hashPairsSnapshot h ≠ []) :
    splitKeywords lossy tables desc args = .ok bound ↔
      KeywordsFit lossy desc (keywordPairs tables desc args) ∧
        bound = boundKwargs lossy tables desc args := by
  have nothing : desc.kws = [] → KeywordsFit lossy desc [] := fun noKws =>
    ⟨fun kw mem => (by simp [noKws] at mem), fun _ pair mem => (nomatch mem)⟩
  by_cases refuses : desc.noKeywords = true
  · obtain ⟨noKws, noKwrest⟩ := desc.nilAlone refuses
    have voiced : desc.takesKeywords = true := by simp [takesKeywords, refuses]
    cases marked : markedHash tables args with
    | some h =>
      -- The refused hash holds a pair, and `**nil` declares no name for it.
      simp only [splitKeywords, refuses, rejectMarkedKwargs, marked]
      refine ⟨fun error => (nomatch error), fun fit => ?_⟩
      obtain ⟨pair, mem⟩ := exists_mem_of_ne_nil _ (written refuses h marked)
      have given : keywordPairs tables desc args = hashPairsSnapshot h := by
        simp [keywordPairs, voiced, marked]
      have known := fit.1.known noKwrest pair (given ▸ mem)
      simp only [declared, kwNames, noKws] at known
      split at known <;> cases known
    | none =>
      have given : keywordPairs tables desc args = [] := by
        simp [keywordPairs, marked]
      have all : positionals tables desc args = args := by simp [positionals, marked]
      simp only [splitKeywords, refuses, if_true, rejectMarkedKwargs, marked, Option.isSome_none,
        Bool.false_eq_true, if_false, Bind.bind, Except.bind, Except.ok.injEq]
      rw [boundKwargs, given, all, noKws]
      exact ⟨fun same => ⟨nothing noKws, same.symm⟩, fun fit => fit.2.symm⟩
  · by_cases takes : desc.kws ≠ [] ∨ desc.kwrest ≠ .none
    · rw [splitKeywords, if_neg refuses, if_pos takes]
      exact bindDynamicKwargs_ok_iff lossy tables desc args bound takes
    · obtain ⟨noKws, noKwrest⟩ : desc.kws = [] ∧ desc.kwrest = .none := by
        simpa only [not_or, not_not] using takes
      have silent : desc.takesKeywords = false := by
        simp [takesKeywords, refuses, noKws, noKwrest]
      have given : keywordPairs tables desc args = [] := by simp [keywordPairs, silent]
      have all : positionals tables desc args = args := by simp [positionals, silent]
      rw [splitKeywords, if_neg refuses, if_neg takes, boundKwargs, given, all, noKws,
        Except.ok.injEq]
      exact ⟨fun same => ⟨nothing noKws, same.symm⟩, fun fit => fit.2.symm⟩

theorem accepts_iff (positional : List RubyValue) (given : Pairs) :
    Accepts lossy desc positional given ↔
      KeywordsFit lossy desc given ∧ desc.min ≤ positional.length ∧
        (desc.rest = .none → positional.length ≤ desc.max) := by
  constructor
  · intro ⟨enough, notMore, required, known⟩
    exact ⟨⟨fun kw mem needed =>
      (lookupName_isSome lossy given kw.name).mpr (required kw mem needed), known⟩, enough, notMore⟩
  · intro ⟨⟨required, known⟩, enough, notMore⟩
    exact ⟨enough, notMore, fun kw mem needed =>
      (lookupName_isSome lossy given kw.name).mp (required kw mem needed), known⟩

theorem checkArity_ok_iff (given : Nat) :
    checkArity desc given (desc.rest ≠ .none) = .ok () ↔
      desc.min ≤ given ∧ (desc.rest = .none → given ≤ desc.max) := by
  by_cases few : given < desc.min
  · simp [checkArity]
  · by_cases rest : desc.rest = .none
    · by_cases many : desc.max < given
      · simp [checkArity, rest]
      · simp [checkArity, few]
        omega
    · simp [checkArity, few]
      omega

/-- The binder succeeds exactly on accepted calls, and then its slots are those of the
placement. -/
theorem bind_ok_iff {desc : ParamDesc} (w : SlotWriter SlotValue)
    (written : desc.noKeywords = true →
      ∀ h, markedHash tables args = some h → hashPairsSnapshot h ≠ []) :
    bind lossy tables desc args = .ok w ↔
      Accepts lossy desc (positionals tables desc args) (keywordPairs tables desc args) ∧
        w = (start empty desc.slotCount).writeAll
          (placement lossy desc (positionals tables desc args) (keywordPairs tables desc args)) := by
  have routed := route_eq lossy desc (positionals tables desc args)
    (keywordPairs tables desc args)
  rw [accepts_iff, bind, except_bind_ok_iff]
  constructor
  · rintro ⟨bound, split, later⟩
    obtain ⟨fit, rfl⟩ := (splitKeywords_ok_iff lossy tables bound written).mp split
    obtain ⟨_, arity, same⟩ := (except_bind_ok_iff _ _ _).mp later
    have within := (checkArity_ok_iff desc _).mp arity
    cases same
    exact ⟨⟨fit, within⟩, routed within.1 fit.required⟩
  · rintro ⟨⟨fit, within⟩, rfl⟩
    refine ⟨_, (splitKeywords_ok_iff lossy tables _ written).mpr ⟨fit, rfl⟩, ?_⟩
    exact (except_bind_ok_iff _ _ _).mpr ⟨(), (checkArity_ok_iff desc _).mpr within,
      congrArg Except.ok (routed within.1 fit.required)⟩

/-- The positionals of a call, by the parameters they are for. -/
structure Parts where
  required : List RubyValue
  optionals : List RubyValue
  middle : List RubyValue
  posts : List RubyValue

/-- The slots' entries hold the parts of the positionals in order, the value given for every
keyword, and the pairs without a keyword. -/
structure Placed (desc : ParamDesc) (positional : List RubyValue)
    (given : Pairs) (parts : Parts) (entries : List (Option SlotValue)) :
    Prop where
  split : positional = parts.required ++ parts.optionals ++ parts.middle ++ parts.posts
  required : parts.required.length = desc.nreq
  posts : parts.posts.length = desc.npost
  optionals : parts.optionals.length ≤ desc.nopt
  leftOver : parts.middle ≠ [] → parts.optionals.length = desc.nopt
  noRest : desc.rest = .none → parts.middle = []
  slots : entries = parts.required.map (some ∘ value) ++
    (parts.optionals.map (some ∘ value) ++
      List.replicate (desc.nopt - parts.optionals.length) none) ++
    desc.rest.entry (.array parts.middle) ++
    parts.posts.map (some ∘ value) ++
    desc.kws.map (fun kw => (lookupName lossy given kw.name).map value) ++
    desc.kwrest.entry (.hash (undeclaredPairs lossy desc given))

/-- The number of places a keyword pair lands in: the keywords of its name, and the keyword
rest. -/
def placesOf (given : Pairs) (pair : RubyValue × RubyValue) : Nat :=
  desc.kws.countP (fun kw => keyName lossy pair.1 = some kw.name) +
    if pair ∈ undeclaredPairs lossy desc given then 1 else 0

theorem placement_placed (given : Pairs) (enough : desc.min ≤ positional.length)
    (notMore : desc.rest = .none → positional.length ≤ desc.max) :
    ∃ parts, Placed lossy desc positional given parts (placement lossy desc positional given) := by
  have split : desc.min = desc.nreq + desc.npost := rfl
  have most : desc.max = desc.nreq + desc.nopt + desc.npost := rfl
  have bound : desc.optBound positional.length = Nat.min (positional.length - desc.min) desc.nopt :=
    rfl
  obtain ⟨reach, extra⟩ := desc.optBound_le positional.length
  refine ⟨⟨positional.take desc.nreq,
    ((positional.take (positional.length - desc.npost)).drop desc.nreq).take
      (desc.optBound positional.length),
    (positional.take (positional.length - desc.npost)).drop
      (desc.nreq + desc.optBound positional.length),
    positional.drop (positional.length - desc.npost)⟩, ?_, ?_, ?_, ?_, ?_, ?_, ?_⟩
  · have first : positional.take desc.nreq =
        (positional.take (positional.length - desc.npost)).take desc.nreq := by
      rw [take_take, Nat.min_eq_left (by omega)]
    rw [first, append_assoc (List.take desc.nreq _), ← drop_drop, take_append_drop,
      take_append_drop, take_append_drop]
  · simp only [length_take]
    omega
  · simp only [length_drop]
    omega
  · simp only [length_take]
    omega
  · intro nonempty
    have room : desc.nreq + desc.optBound positional.length <
        (positional.take (positional.length - desc.npost)).length := by
      by_contra full
      exact nonempty (drop_eq_nil_of_le (Nat.le_of_not_lt full))
    simp only [length_take, length_drop] at room ⊢
    simp only [Nat.min_def] at bound
    split at bound <;> omega
  · intro without
    have few := notMore without
    apply drop_eq_nil_of_le
    simp only [length_take]
    simp only [Nat.min_def] at bound
    split at bound <;> omega
  · have length : (((positional.take (positional.length - desc.npost)).drop desc.nreq).take
        (desc.optBound positional.length)).length = desc.optBound positional.length := by
      simp only [length_take, length_drop]
      omega
    rw [length]
    rfl

variable {given : Pairs}

theorem Placed.length {desc : ParamDesc} {parts : Parts} {entries : List (Option SlotValue)}
    (placed : Placed lossy desc positional given parts entries) :
    entries.length = desc.slotCount := by
  have few := placed.optionals
  rw [placed.slots, slotCount]
  simp only [length_append, length_map, length_replicate, Star.entry_length, placed.required,
    placed.posts]
  omega

variable {pair : RubyValue × RubyValue}

theorem placesOf_eq (mem : pair ∈ given) :
    placesOf lossy desc given pair =
      max 1 (desc.kws.countP fun kw => keyName lossy pair.1 = some kw.name) := by
  have known : declared lossy desc.kwNames pair.1 = true ↔
      0 < desc.kws.countP fun kw => keyName lossy pair.1 = some kw.name := by
    cases text : keyName lossy pair.1 with
    | none => simp [declared, text]
    | some name => simp [declared, text, kwNames, eq_comm]
  by_cases here : declared lossy desc.kwNames pair.1 = true
  · have out : pair ∉ undeclaredPairs lossy desc given := by simp [undeclaredPairs, here]
    have found := known.mp here
    rw [placesOf, if_neg out, Nat.max_eq_right (Nat.succ_le_of_lt found), Nat.add_zero]
  · have kept : pair ∈ undeclaredPairs lossy desc given := by
      simpa [undeclaredPairs, here] using mem
    have unnamed : desc.kws.countP (fun kw => keyName lossy pair.1 = some kw.name) = 0 :=
      Nat.eq_zero_of_not_pos (fun found => here (known.mpr found))
    rw [placesOf, if_pos kept, unnamed]
    rfl

theorem lookupName_unique {name : String} (mem : pair ∈ given)
    (named : keyName lossy pair.1 = some name)
    (alone : ∀ other ∈ given, keyName lossy other.1 = some name → other = pair) :
    lookupName lossy given name = some pair.2 := by
  have found := (lookupName_isSome lossy given name).mpr ⟨pair, mem, named⟩
  obtain ⟨value, same⟩ := Option.isSome_iff_exists.mp found
  rw [same]
  rw [lookupName, List.findSome?_eq_some_iff] at same
  obtain ⟨before, other, after, split, hit, -⟩ := same
  have there : other ∈ given := by rw [split]; simp
  split at hit
  case isTrue here =>
    rw [← alone other there here]
    exact hit.symm
  case isFalse => cases hit

end Method

/-! ## A name declared twice

Ruby lets parameter names that start with an underscore repeat. Each such keyword has its own
slot, and one pair fills them all. -/

/-- `def m(_a:, _a:)`. -/
def repeatedKeyword : ParamDesc where
  nreq := 0
  nopt := 0
  npost := 0
  rest := .none
  kwrest := .none
  noKeywords := false
  implicitRest := false
  kws := [⟨"_a", true⟩, ⟨"_a", true⟩]
  name := "m"
  fits := by decide
  nilAlone := by simp
  trailingComma := noTrailingComma

/-- The hash of a call `m(_a: true)`. -/
def oneKeyword (_ : Addr) : RHashData plainMap :=
  let data : RHashData plainMap := RHashData.new .nil
  { data with
    repr := .small [(HashKey.symbol (.text "_a"), (.symbol (.text "_a"), .bool true))]
    kwMarked := true }

/-- `def m(a, b = 0, *c, d, k:, **o)`. -/
def everyKind : ParamDesc where
  nreq := 1
  nopt := 1
  npost := 1
  rest := .named
  kwrest := .named
  noKeywords := false
  implicitRest := false
  kws := [⟨"k", true⟩]
  name := "m"
  fits := by decide
  nilAlone := by simp
  trailingComma := by simp

/-- `def m(a, **nil)`. -/
def nilKeywords : ParamDesc :=
  { everyKind with
    nopt := 0, npost := 0, rest := .none, kwrest := .none, noKeywords := true, kws := []
    fits := by decide, nilAlone := fun _ => ⟨rfl, rfl⟩, trailingComma := noTrailingComma }

/-- The hash of a call with `k: true, z: false`. -/
def twoKeywords (_ : Addr) : RHashData plainMap :=
  let data : RHashData plainMap := RHashData.new .nil
  { data with
    repr := .small [(HashKey.symbol (.text "k"), (.symbol (.text "k"), .bool true)),
      (HashKey.symbol (.text "z"), (.symbol (.text "z"), .bool false))]
    kwMarked := true }

/-- `m(nil, true, false, nil, k: true, z: false)`. -/
def spreadCall : List RubyValue := [.nil, .bool true, .bool false, .nil, .hash 0]

end Zeo.Capi
