import Mathlib.Data.List.Find
import Zeo.Capi.Method

/-!
# The block binder

Blocks and lambdas bind with the descriptor and the slots of methods, by rules of their own. A
lambda binds as a method but for three points: a trailing comma is no rest to it, any trailing Hash
gives its keywords, and an optional keyword given as nil counts as absent.
-/

namespace Zeo.Capi

open Zeo.Enc Zeo.Lib Zeo.Value List SlotWriter ParamDesc HashKey

section Block

variable {eql : UserEql} {im : ValueMap eql}
variable (lossy : EncodingId → List UInt8 → String) (tables : Addr → RHashData im)

/-- `BLOCK_BIND_AUTO_SPLAT` and `BLOCK_BIND_LAMBDA`. -/
structure BlockFlags where
  /-- A lone array argument is spread over the parameters. -/
  autoSplat : Bool
  lambda : Bool

/-- `hash_has_key` on the symbol of a name. -/
def symbolHasKey (data : RHashData im) (name : String) : Bool :=
  data.containsKey (.ofKey (HashKey.symbol (.text name)))

/-- `hash_get` on the symbol of a name. -/
def symbolGet (data : RHashData im) (name : String) : RubyValue :=
  ((data.get (.ofKey (HashKey.symbol (.text name)))).map (·.2)).getD .nil

variable (arrays : Addr → List RubyValue)

/-- `block_auto_splat`, with `toAry` for a dispatch of `to_ary`. -/
def blockAutoSplat
    (toAry : RubyValue → Except String (Option (List RubyValue))) (args : List RubyValue) :
    Except String (List RubyValue) :=
  match args with
  | [.array addr] => .ok (arrays addr)
  | [value] => do
    let spread ← toAry value
    .ok (spread.getD args)
  | args => .ok args

def ParamDesc.hasKeywords (desc : ParamDesc) : Bool := desc.kws ≠ [] || desc.kwrest ≠ .none

/-- The keyword loop of `bind_block`. -/
def fillBlockKeywords (source : Option (RHashData im)) (w : SlotWriter SlotValue) :
    List KwParam → Except String (SlotWriter SlotValue)
  | [] => .ok w
  | kw :: kws =>
    if kw.required then
      match source with
      | some h =>
        if symbolHasKey h kw.name then
          fillBlockKeywords source (w.fill (.value (symbolGet h kw.name))) kws
        else .error ("missing keyword: :" ++ kw.name)
      | none => .error ("missing keyword: :" ++ kw.name)
    else
      match source with
      | some h =>
        if symbolGet h kw.name = .nil then fillBlockKeywords source w.skip kws
        else fillBlockKeywords source (w.fill (.value (symbolGet h kw.name))) kws
      | none => fillBlockKeywords source w.skip kws

/-- The positional routing of `bind_block`: missing arguments are nil, posts follow the rest. -/
def routeBlock (desc : ParamDesc) (positional : List RubyValue) : SlotWriter SlotValue :=
  let extra := positional.length - desc.min
  let optBound := Nat.min extra desc.nopt
  let restCount := if desc.rest ≠ .none then extra - optBound else 0
  let w := SlotWriter.start SlotValue.empty desc.slotCount
  let w := (List.range desc.nreq).foldl
    (fun w i => w.fill (.value (positional.getD i .nil))) w
  let w := (List.range desc.nopt).foldl
    (fun w i =>
      if i < optBound then w.fill (.value (positional.getD (desc.nreq + i) .nil)) else w.skip) w
  let w := match desc.rest with
    | .named =>
      w.fill (.array ((List.range restCount).filterMap fun i =>
        positional[desc.nreq + optBound + i]?))
    | .anon | .none => w
  (List.range desc.npost).foldl
    (fun w i => w.fill (.value (positional.getD (desc.nreq + optBound + restCount + i) .nil))) w

def bindBlock
    (toAry : RubyValue → Except String (Option (List RubyValue))) (flags : BlockFlags)
    (desc : ParamDesc) (args : List RubyValue) : Except String (SlotWriter SlotValue) := do
  let source := if desc.hasKeywords then trailingHash tables args else none
  if flags.lambda then
    checkArity desc (if source.isSome then args.length - 1 else args.length)
      (desc.rest ≠ .none && !desc.implicitRest)
  let positional := if source.isSome then args.dropLast else args
  let positional ← if flags.autoSplat then blockAutoSplat arrays toAry positional else .ok positional
  let w ← fillBlockKeywords source (routeBlock desc positional) desc.kws
  .ok (match desc.kwrest with
    | .named =>
      w.fill (.hash (((source.map hashPairsSnapshot).getD []).filter fun pair =>
        !declared lossy desc.kwNames pair.1))
    | .anon | .none => w)

/-- The descriptor without the rest that a trailing comma makes. -/
def ParamDesc.asWritten (desc : ParamDesc) : ParamDesc :=
  { desc with
    rest := if desc.implicitRest then .none else desc.rest
    implicitRest := false
    fits := by
      have fits := desc.fits
      cases comma : desc.implicitRest with
      | false => simpa [comma] using fits
      | true =>
        rw [desc.trailingComma comma] at fits
        rw [if_pos rfl]
        exact fits
    trailingComma := by simp }

/-- The hashes of a call with every one marked, where the callee looks for keywords. -/
def asKeywords (desc : ParamDesc) (addr : Addr) : RHashData im :=
  if desc.hasKeywords then { tables addr with kwMarked := true } else tables addr

def keywordSource (desc : ParamDesc) (args : List RubyValue) : Option (RHashData im) :=
  if desc.hasKeywords then trailingHash tables args else none

def ParamDesc.kwStart (desc : ParamDesc) : Nat :=
  desc.nreq + desc.nopt + desc.rest.slots + desc.npost

def nilKeyword (desc : ParamDesc) (given : Pairs) (slot : Nat) : Bool :=
  decide (desc.kwStart ≤ slot) &&
    match desc.kws[slot - desc.kwStart]? with
    | some kw => !kw.required && decide (lookupName lossy given kw.name = some .nil)
    | none => false

variable (find : String → Option RubyValue)

def blockEntry (kw : KwParam) : Option SlotValue :=
  if kw.required then (find kw.name).map SlotValue.value
  else ((find kw.name).filter (· ≠ .nil)).map SlotValue.value

def positionalEntries (desc : ParamDesc) (positional : List RubyValue) : List (Option SlotValue) :=
  let optBound := desc.optBound positional.length
  let upToPost := positional.take (positional.length - desc.npost)
  (positional.take desc.nreq).map (some ∘ SlotValue.value) ++
    (((upToPost.drop desc.nreq).take optBound).map (some ∘ SlotValue.value) ++
      List.replicate (desc.nopt - optBound) none) ++
    desc.rest.entry (.array (upToPost.drop (desc.nreq + optBound))) ++
    (positional.drop (positional.length - desc.npost)).map (some ∘ SlotValue.value)

variable (desc : ParamDesc)

variable (positional : List RubyValue)

theorem placement_eq (given : Pairs) :
    placement lossy desc positional given =
      positionalEntries desc positional ++
        desc.kws.map (fun kw => (lookupName lossy given kw.name).map SlotValue.value) ++
        desc.kwrest.entry (.hash (undeclaredPairs lossy desc given)) := rfl

theorem rangeLoop_eq (w : SlotWriter SlotValue) (count offset : Nat) (positional : List RubyValue)
    (reach : offset + count ≤ positional.length) :
    (List.range count).foldl (fun w i => w.fill (.value (positional.getD (offset + i) .nil))) w =
      w.writeAll (((positional.drop offset).take count).map (some ∘ SlotValue.value)) := by
  have loop := optionalLoop_eq w (Nat.le_refl _) reach
  rw [Nat.sub_self, replicate_zero, append_nil] at loop
  rw [← loop]
  apply foldl_ext
  intro w i mem
  rw [if_pos (mem_range.mp mem)]

theorem filterMap_range {offset count : Nat} (reach : offset + count ≤ positional.length) :
    ((List.range count).filterMap fun i => positional[offset + i]?) =
      (positional.drop offset).take count := by
  induction count with
  | zero => simp
  | succ count ih =>
    have inside : offset + count < positional.length := by omega
    rw [range_succ, filterMap_append, ih (by omega), take_add_one]
    simp [inside]

theorem routeBlock_eq (enough : desc.min ≤ positional.length)
    (notMore : desc.asWritten.rest = .none → positional.length ≤ desc.max) :
    routeBlock desc positional =
      (start SlotValue.empty desc.slotCount).writeAll
        (positionalEntries desc positional) := by
  have least : desc.min = desc.nreq + desc.npost := rfl
  have most : desc.max = desc.nreq + desc.nopt + desc.npost := rfl
  obtain ⟨bound, extra⟩ := desc.optBound_le positional.length
  have value : desc.optBound positional.length =
      Nat.min (positional.length - desc.min) desc.nopt := rfl
  -- Whatever the optionals leave is the rest's, and there is none without a rest.
  have count : (if desc.rest ≠ .none then
      positional.length - desc.min - desc.optBound positional.length else 0) =
      positional.length - desc.npost - (desc.nreq + desc.optBound positional.length) := by
    split
    · omega
    · next without =>
      have none : desc.asWritten.rest = .none := by
        simp only [asWritten]
        split
        · rfl
        · simpa using without
      have few := notMore none
      simp only [Nat.min_def] at value
      split at value <;> omega
  have optionals : ((positional.take (positional.length - desc.npost)).drop desc.nreq).take
      (desc.optBound positional.length) =
      (positional.drop desc.nreq).take (desc.optBound positional.length) := by
    rw [drop_take, take_take, Nat.min_eq_left (by omega)]
  have middle : (positional.take (positional.length - desc.npost)).drop
      (desc.nreq + desc.optBound positional.length) =
      (positional.drop (desc.nreq + desc.optBound positional.length)).take
        (positional.length - desc.npost - (desc.nreq + desc.optBound positional.length)) :=
    drop_take
  have posts : positional.drop (positional.length - desc.npost) =
      (positional.drop (positional.length - desc.npost)).take desc.npost := by
    rw [take_of_length_le (by simp; omega)]
  have start : desc.nreq + desc.optBound positional.length +
      (positional.length - desc.npost - (desc.nreq + desc.optBound positional.length)) =
      positional.length - desc.npost := by omega
  have required := fun w => rangeLoop_eq w desc.nreq 0 positional (by omega)
  simp only [Nat.zero_add] at required
  simp only [routeBlock, positionalEntries, writeAll_append]
  rw [← value, count, start, required, optionals, middle, posts,
    optionalLoop_eq _ bound (by omega), writeAll_append,
    rangeLoop_eq _ desc.npost _ positional (by omega), filterMap_range positional (by omega)]
  cases desc.rest <;> rfl

/-- A block's entry of a keyword is the method's, but for an optional keyword given as nil. -/
theorem blockEntry_eq (kw : KwParam) :
    blockEntry find kw = if !kw.required && decide (find kw.name = some .nil) then none
      else (find kw.name).map SlotValue.value := by
  unfold blockEntry
  cases kw.required with
  | true => rfl
  | false =>
    cases find kw.name with
    | none => rfl
    | some value => by_cases nil : value = .nil <;> simp [nil]

theorem fillBlockKeywords_cons {source : Option (RHashData im)} {find : String → Option RubyValue}
    {kw : KwParam} (reads : ∀ h, source = some h → symbolHasKey h kw.name = (find kw.name).isSome ∧
      symbolGet h kw.name = (find kw.name).getD .nil)
    (absent : source = none → find kw.name = none) (kws : List KwParam) (w : SlotWriter SlotValue) :
    fillBlockKeywords source w (kw :: kws) =
      if kw.required && (find kw.name).isNone then .error ("missing keyword: :" ++ kw.name)
      else fillBlockKeywords source (w.write (blockEntry find kw)) kws := by
  rw [blockEntry_eq]
  cases source with
  | none => cases required : kw.required <;> simp [fillBlockKeywords, required, absent, write]
  | some h =>
    obtain ⟨has, get⟩ := reads h rfl
    cases found : find kw.name with
    | none =>
      rw [found] at has get
      cases required : kw.required <;> simp [fillBlockKeywords, required, has, get, write]
    | some value =>
      rw [found] at has get
      cases required : kw.required with
      | true => simp [fillBlockKeywords, required, has, get, write]
      | false =>
        by_cases nil : value = .nil <;> simp [fillBlockKeywords, required, get, nil, write]

/-- The keyword loop of a block succeeds exactly when the required keywords are there. -/
theorem fillBlockKeywords_ok_iff (source : Option (RHashData im)) (find : String → Option RubyValue)
    (kws : List KwParam) (w w' : SlotWriter SlotValue)
    (reads : ∀ kw ∈ kws, ∀ h, source = some h → symbolHasKey h kw.name = (find kw.name).isSome ∧
      symbolGet h kw.name = (find kw.name).getD .nil)
    (absent : source = none → ∀ kw ∈ kws, find kw.name = none) :
    fillBlockKeywords source w kws = .ok w' ↔
      (∀ kw ∈ kws, kw.required = true → (find kw.name).isSome = true) ∧
        w' = w.writeAll (kws.map (blockEntry find)) := by
  induction kws generalizing w with
  | nil =>
    rw [fillBlockKeywords, Except.ok.injEq]
    exact ⟨fun same => ⟨fun _ mem => (nomatch mem), same.symm⟩, fun fit => fit.2.symm⟩
  | cons kw kws ih =>
    obtain ⟨first, others⟩ := forall_mem_cons.mp reads
    have later := fun w => ih w others
      (fun without other mem => absent without other (mem_cons_of_mem _ mem))
    rw [fillBlockKeywords_cons first fun without => absent without kw mem_cons_self,
      forall_mem_cons]
    split
    · simp_all
    · have here : kw.required = true → (find kw.name).isSome = true := by
        cases found : find kw.name <;> simp_all
      rw [later]
      exact ⟨fun fit => ⟨⟨here, fit.1⟩, fit.2⟩, fun fit => ⟨fit.1.2, fit.2⟩⟩

variable {w : World} {byIdentity : Bool}

theorem hashKeyRec_symbol
    (payloads : ∀ addr s, w.builtinPayload addr ≠ some (.symbol s)) {depth : Nat} {v : RubyValue}
    {seen : List Addr} {s : Symbol}
    (projects : hashKeyRec w depth v byIdentity seen = pure (.symbol s)) : v = .symbol s := by
  induction depth generalizing v with
  | zero => cases projects
  | succ depth ih =>
    cases addressed : (if byIdentity then identityOf v else none) with
    | some addr =>
      simp only [hashKeyRec, addressed] at projects
      cases projects
    | none =>
      cases v with
      | symbol t =>
        simp only [hashKeyRec, addressed] at projects
        cases projects
        rfl
      | complex addr | range addr =>
        simp only [hashKeyRec, addressed, Projected.bind_eq_pure] at projects
        obtain ⟨first, -, second, -, last⟩ := projects
        cases last
      | array addr | hash addr =>
        simp only [hashKeyRec, addressed] at projects
        split at projects
        · cases projects
        · rw [Projected.bind_eq_pure] at projects
          obtain ⟨parts, -, last⟩ := projects
          cases last
      | object addr =>
        simp only [hashKeyRec, addressed] at projects
        split at projects
        · rw [Projected.bind_eq_pure] at projects
          obtain ⟨key, -, last⟩ := projects
          cases last
        · cases projects
        · split at projects
          · next payload wraps =>
            exact absurd wraps (ih projects ▸ payloads addr s)
          · cases projects
      | _ =>
        simp only [hashKeyRec, addressed] at projects
        cases projects

theorem beq_symbol_iff (s : Symbol) (key : HashKey) :
    (beq eql (.symbol s) key = true ↔ key = .symbol s) ∧
      (beq eql key (.symbol s) = true ↔ key = .symbol s) := by
  cases key with
  | symbol t =>
    rw [beq, beq, beq_iff_eq, beq_iff_eq, symbol.injEq]
    exact ⟨eq_comm, .rfl⟩
  | _ => simp [beq]

theorem stored_symbol_iff (payloads : ∀ addr s, w.builtinPayload addr ≠ some (.symbol s))
    {key : RubyValue} {stored k : HashKey} (projects : hashKeyIn w key byIdentity = pure k)
    (equal : beq eql stored k = true) (s : Symbol) :
    beq eql (.symbol s) stored = true ↔ key = .symbol s := by
  rw [(beq_symbol_iff s stored).1]
  constructor
  · intro same
    rw [same, (beq_symbol_iff s k).1] at equal
    rw [equal] at projects
    exact hashKeyRec_symbol payloads projects
  · intro original
    have projected : k = .symbol s := by
      rw [original] at projects
      cases byIdentity <;> cases projects <;> rfl
    rw [projected] at equal
    exact (beq_symbol_iff s stored).2.mp equal

/-- A hash whose keys of a name are all the symbol of that text answers by symbol as a walk over
its pairs answers by name. -/
theorem symbolGet_eq (laws : EqlLaws eql) (lawful : im.Lawful)
    (payloads : ∀ addr s, w.builtinPayload addr ≠ some (.symbol s)) {data : RHashData im}
    (ok : TableOk w data) {name : String}
    (plain : ∀ pair ∈ hashPairsSnapshot data, keyName lossy pair.1 = some name →
      pair.1 = .symbol (.text name)) :
    symbolHasKey data name = (lookupName lossy (hashPairsSnapshot data) name).isSome ∧
      symbolGet data name = (lookupName lossy (hashPairsSnapshot data) name).getD .nil := by
  have := Key.equivBEq laws
  have pairs := hashPairsSnapshot_rows lawful data
  have tests : ∀ row ∈ data.rows, beq eql (.symbol (.text name)) row.1 =
      decide (keyName lossy row.2.1 = some name) := by
    intro row mem
    have listed : row.2 ∈ hashPairsSnapshot data := pairs ▸ mem_map_of_mem mem
    obtain ⟨k, projects, equal⟩ := ok.agrees row mem
    rw [Bool.eq_iff_iff, decide_eq_true_iff]
    refine (stored_symbol_iff payloads projects equal _).trans ?_
    exact ⟨fun original => by rw [original]; rfl, fun named => plain row.2 listed named⟩
  have found : data.rows.find? (fun row => beq eql (.symbol (.text name)) row.1) =
      data.rows.find? (fun row => decide (keyName lossy row.2.1 = some name)) :=
    List.find?_congr tests
  have walk : lookupName lossy (hashPairsSnapshot data) name =
      (data.rows.find? (fun row => decide (keyName lossy row.2.1 = some name))).map (·.2.2) := by
    rw [lookupName, pairs]
    induction data.rows with
    | nil => rfl
    | cons row rest ih =>
      by_cases named : keyName lossy row.2.1 = some name
      · simp [named]
      · simpa [named] using ih
  constructor
  · rw [walk, ← found, symbolHasKey, RHashData.containsKey_rows lawful, Option.isSome_map,
      isSome_find?]
    rfl
  · rw [walk, ← found, symbolGet, RHashData.get_rows lawful, AssocList.get, Option.map_map]
    rfl

def blockPairs (desc : ParamDesc) (args : List RubyValue) : Pairs :=
  ((keywordSource tables desc args).map hashPairsSnapshot).getD []

def blockPositionals (desc : ParamDesc) (args : List RubyValue) : List RubyValue :=
  if (keywordSource tables desc args).isSome then args.dropLast else args

/-- A hash is the source of keywords only when an argument ends the list. -/
theorem blockPositionals_length (args : List RubyValue) :
    (blockPositionals tables desc args).length =
      if (keywordSource tables desc args).isSome then args.length - 1 else args.length := by
  unfold blockPositionals
  split
  · exact length_dropLast
  · rfl

theorem asWritten_rest :
    (desc.rest ≠ .none && !desc.implicitRest) = decide (desc.asWritten.rest ≠ .none) := by
  cases comma : desc.implicitRest <;> simp [asWritten, comma]

/-- What a lambda does: it checks the arity, routes the positionals, and adds the keywords and
the keyword rest. -/
theorem bindBlock_lambda_eq
    (toAry : RubyValue → Except String (Option (List RubyValue))) (desc : ParamDesc)
    (args : List RubyValue) :
    bindBlock lossy tables arrays toAry ⟨false, true⟩ desc args = (do
      checkArity desc.asWritten (blockPositionals tables desc args).length
        (desc.asWritten.rest ≠ .none)
      let w ← fillBlockKeywords (keywordSource tables desc args)
        (routeBlock desc (blockPositionals tables desc args)) desc.kws
      .ok (w.writeAll (desc.kwrest.entry
        (.hash (undeclaredPairs lossy desc (blockPairs tables desc args)))))) := by
  have rest : ∀ w : SlotWriter SlotValue, w.writeAll (desc.kwrest.entry
        (.hash (undeclaredPairs lossy desc (blockPairs tables desc args)))) =
      (match desc.kwrest with
        | .named => w.fill (.hash ((blockPairs tables desc args).filter fun pair =>
            !declared lossy desc.kwNames pair.1))
        | .anon | .none => w) := by
    intro w
    cases desc.kwrest <;> rfl
  simp only [← asWritten_rest, blockPositionals_length, rest]
  rfl

theorem bindBlock_lambda_ok_iff
    (toAry : RubyValue → Except String (Option (List RubyValue))) (desc : ParamDesc)
    (args : List RubyValue) (w : SlotWriter SlotValue)
    (reads : ∀ kw ∈ desc.kws, ∀ h, keywordSource tables desc args = some h →
      symbolHasKey h kw.name = (lookupName lossy (hashPairsSnapshot h) kw.name).isSome ∧
        symbolGet h kw.name = (lookupName lossy (hashPairsSnapshot h) kw.name).getD .nil) :
    bindBlock lossy tables arrays toAry ⟨false, true⟩ desc args = .ok w ↔
      (desc.min ≤ (blockPositionals tables desc args).length ∧
        (desc.asWritten.rest = .none → (blockPositionals tables desc args).length ≤ desc.max)) ∧
      (∀ kw ∈ desc.kws, kw.required = true →
        (lookupName lossy (blockPairs tables desc args) kw.name).isSome = true) ∧
      w = (start SlotValue.empty desc.slotCount).writeAll
        (positionalEntries desc (blockPositionals tables desc args) ++
          desc.kws.map (blockEntry (lookupName lossy (blockPairs tables desc args))) ++
          desc.kwrest.entry (.hash (undeclaredPairs lossy desc (blockPairs tables desc args)))) := by
  have filled := fun w w' => fillBlockKeywords_ok_iff (keywordSource tables desc args)
    (lookupName lossy (blockPairs tables desc args)) desc.kws w w'
    (fun kw mem h source => by
      have pairs : blockPairs tables desc args = hashPairsSnapshot h := by simp [blockPairs, source]
      rw [pairs]
      exact reads kw mem h source)
    (fun source kw _ => by simp [blockPairs, source, lookupName])
  have arity := checkArity_ok_iff desc.asWritten (blockPositionals tables desc args).length
  rw [bindBlock_lambda_eq, except_bind_ok_iff]
  constructor
  · rintro ⟨⟨⟩, passed, bound⟩
    obtain ⟨enough, notMore⟩ := arity.mp passed
    obtain ⟨w', loop, same⟩ := (except_bind_ok_iff _ _ _).mp bound
    obtain ⟨required, rfl⟩ := (filled _ _).mp loop
    cases same
    refine ⟨⟨enough, notMore⟩, required, ?_⟩
    rw [routeBlock_eq desc _ enough notMore, writeAll_append, writeAll_append]
  · rintro ⟨⟨enough, notMore⟩, required, rfl⟩
    refine ⟨(), arity.mpr ⟨enough, notMore⟩, (except_bind_ok_iff _ _ _).mpr
      ⟨_, (filled _ _).mpr ⟨required, rfl⟩, ?_⟩⟩
    rw [routeBlock_eq desc _ enough notMore, writeAll_append, writeAll_append]

theorem markedHash_asKeywords (args : List RubyValue) (has : desc.hasKeywords = true) :
    markedHash (asKeywords tables desc) args =
      (keywordSource tables desc args).map fun h => { h with kwMarked := true } := by
  rw [markedHash, keywordSource, trailingHash, trailingHash]
  split <;> simp [asKeywords, has]

/-- A lambda and a method with the same written parameters take the same pairs and the same
positionals from a call. -/
theorem asKeywords_splits {args : List RubyValue}
    (unrefused : desc.noKeywords = true → markedHash tables args = none) :
    keywordPairs (asKeywords tables desc) desc.asWritten args = blockPairs tables desc args ∧
      positionals (asKeywords tables desc) desc.asWritten args = blockPositionals tables desc args := by
  have voice : desc.asWritten.takesKeywords = (desc.noKeywords || desc.hasKeywords) := by
    rw [hasKeywords, ← Bool.or_assoc]
    rfl
  cases has : desc.hasKeywords with
  | true =>
    have taken := markedHash_asKeywords tables desc args has
    have voiced : desc.asWritten.takesKeywords = true := by rw [voice, has, Bool.or_true]
    constructor
    · rw [keywordPairs, if_pos voiced, taken, Option.map_map]
      rfl
    · rw [positionals, voiced, taken, Option.isSome_map]
      rfl
  | false =>
    have same : asKeywords tables desc = tables := by
      funext addr
      simp [asKeywords, has]
    have nothing : keywordSource tables desc args = none := by simp [keywordSource, has]
    have unmarked : desc.asWritten.takesKeywords = true → markedHash tables args = none := by
      rw [voice, has, Bool.or_false]
      exact unrefused
    rw [same, blockPairs, blockPositionals, nothing]
    constructor
    · rw [keywordPairs]
      split
      · next voiced => rw [unmarked voiced]
      · rfl
    · rw [positionals]
      split
      · next both =>
        rw [Bool.and_eq_true] at both
        rw [unmarked both.1] at both
        cases both.2
      · rfl

theorem placement_asWritten (given : Pairs) :
    placement lossy desc.asWritten positional given = placement lossy desc positional given := by
  cases comma : desc.implicitRest with
  | false => simp [asWritten, comma]; rfl
  | true =>
    have rest := desc.trailingComma comma
    simp [placement, asWritten, comma, rest]
    rfl

theorem slotCount_asWritten : desc.asWritten.slotCount = desc.slotCount := by
  cases comma : desc.implicitRest with
  | false => simp [slotCount, asWritten, comma]
  | true =>
    simp [slotCount, asWritten, comma, desc.trailingComma comma, Star.slots]

theorem positionalEntries_length (enough : desc.min ≤ positional.length) :
    (positionalEntries desc positional).length = desc.kwStart := by
  have least : desc.min = desc.nreq + desc.npost := rfl
  obtain ⟨bound, extra⟩ := desc.optBound_le positional.length
  simp only [positionalEntries, kwStart, length_append, length_map,
    length_take, length_drop, length_replicate, Star.entry_length]
  omega

theorem blockEntry_isSome (kw : KwParam) :
    (blockEntry find kw).isSome =
      ((find kw.name).isSome && !(!kw.required && decide (find kw.name = some .nil))) := by
  rw [blockEntry_eq]
  cases kw.required <;> split <;> simp_all

theorem blockEntry_getD (kw : KwParam) :
    (blockEntry find kw).getD SlotValue.empty =
      ((find kw.name).map SlotValue.value).getD SlotValue.empty := by
  rw [blockEntry_eq]
  split <;> simp_all [SlotValue.empty]

theorem blockEntries_isSome
    (before after : List (Option SlotValue))
    (kws : List KwParam) (i : Nat) :
    ((before ++ kws.map (blockEntry find) ++ after)[i]?.getD none).isSome =
      (((before ++ kws.map (fun kw => (find kw.name).map SlotValue.value) ++ after)[i]?.getD
        none).isSome &&
        !(decide (before.length ≤ i) &&
          match kws[i - before.length]? with
          | some kw => !kw.required && decide (find kw.name = some .nil)
          | none => false)) := by
  by_cases first : i < before.length
  · have early : ¬ before.length ≤ i := Nat.not_le.mpr first
    simp [List.getElem?_append_left first, early]
  · have late : before.length ≤ i := Nat.not_lt.mp first
    simp only [append_assoc, List.getElem?_append_right late, late]
    by_cases second : i - before.length < kws.length
    · rw [List.getElem?_append_left (by simpa using second),
        List.getElem?_append_left (by simpa using second)]
      simp [second, blockEntry_isSome]
    · have past : kws.length ≤ i - before.length := Nat.not_lt.mp second
      rw [List.getElem?_append_right (by simpa using past),
        List.getElem?_append_right (by simpa using past), List.getElem?_eq_none past]
      simp

/-- The entries of a lambda's slots leave the same slots as a method's, and the presence bits of
all but the optional keywords given as nil. -/
theorem blockEntries_wrote (desc : ParamDesc) (positional : List RubyValue)
    (given : Pairs) (enough : desc.min ≤ positional.length)
    (w w' : SlotWriter SlotValue)
    (bound : w = (start SlotValue.empty desc.slotCount).writeAll
      (positionalEntries desc positional ++ desc.kws.map (blockEntry (lookupName lossy given)) ++
        desc.kwrest.entry (.hash (undeclaredPairs lossy desc given))))
    (bound' : w' = (start SlotValue.empty desc.slotCount).writeAll
      (placement lossy desc positional given)) :
    w.cursor = w'.cursor ∧ w.slots = w'.slots ∧
      ∀ i, i < 64 → w.present.getLsbD i =
        (w'.present.getLsbD i && !nilKeyword lossy desc given i) := by
  have width := positionalEntries_length desc positional enough
  have total : desc.slotCount = desc.kwStart + desc.kws.length + desc.kwrest.slots := rfl
  have wrote := writeAll_wrote SlotValue.empty desc.slotCount
    (positionalEntries desc positional ++ desc.kws.map (blockEntry (lookupName lossy given)) ++
      desc.kwrest.entry (.hash (undeclaredPairs lossy desc given)))
    (by simp [width, Star.entry_length, total, Nat.add_assoc])
  have wrote' := writeAll_wrote SlotValue.empty desc.slotCount
    (placement lossy desc positional given)
    (by simp [placement_eq, width, Star.entry_length, total, Nat.add_assoc])
  rw [← bound] at wrote
  rw [← bound', placement_eq] at wrote'
  refine ⟨?_, ?_, ?_⟩
  · rw [wrote.cursor, wrote'.cursor]
    simp
  · rw [wrote.slots, wrote'.slots]
    simp [blockEntry_getD]
  · intro i inside
    rw [wrote.present i inside, wrote'.present i inside, blockEntries_isSome, width]
    rfl

/-- A lambda binds as a method does. Take a method with the lambda's parameters as written,
called with the lambda's trailing Hash as its keywords. Then both succeed on the same calls, and
fill the same slots with the same values. They set the same presence bits, except that an
optional keyword given as nil is absent for the lambda. Nothing is said of keywords that a lambda
neither declares nor collects, of marked keywords that `**nil` refuses, and of keyword symbols
in an encoding of their own. -/
theorem lambda_binds_like_method (laws : EqlLaws eql) (lawful : im.Lawful) (world : World)
    (payloads : ∀ addr s, world.builtinPayload addr ≠ some (.symbol s))
    (arrays : Addr → List RubyValue)
    (toAry : RubyValue → Except String (Option (List RubyValue))) (desc : ParamDesc)
    (args : List RubyValue)
    (stored : ∀ h, trailingHash tables args = some h → TableOk world h)
    (known : desc.kwrest = .none → ∀ pair ∈ blockPairs tables desc args,
      declared lossy desc.kwNames pair.1 = true)
    (unrefused : desc.noKeywords = true → markedHash tables args = none)
    (plain : ∀ pair ∈ blockPairs tables desc args, ∀ name ∈ desc.kwNames,
      keyName lossy pair.1 = some name → pair.1 = .symbol (.text name)) :
    ((∃ w, bindBlock lossy tables arrays toAry ⟨false, true⟩ desc args = .ok w) ↔
      ∃ w, bind lossy (asKeywords tables desc) desc.asWritten args = .ok w) ∧
    ∀ w w', bindBlock lossy tables arrays toAry ⟨false, true⟩ desc args = .ok w →
      bind lossy (asKeywords tables desc) desc.asWritten args = .ok w' →
      w.cursor = w'.cursor ∧ w.slots = w'.slots ∧
        ∀ i, i < 64 → w.present.getLsbD i =
          (w'.present.getLsbD i && !nilKeyword lossy desc (blockPairs tables desc args) i) := by
  obtain ⟨pairs, positional⟩ := asKeywords_splits tables desc unrefused
  have reads : ∀ kw ∈ desc.kws, ∀ h, keywordSource tables desc args = some h →
      symbolHasKey h kw.name = (lookupName lossy (hashPairsSnapshot h) kw.name).isSome ∧
        symbolGet h kw.name = (lookupName lossy (hashPairsSnapshot h) kw.name).getD .nil := by
    intro kw member h source
    have trailing : trailingHash tables args = some h := by
      rw [keywordSource] at source
      split at source
      · exact source
      · cases source
    have given : blockPairs tables desc args = hashPairsSnapshot h := by simp [blockPairs, source]
    refine symbolGet_eq lossy laws lawful payloads (stored h trailing) ?_
    intro pair listed named
    exact plain pair (given ▸ listed) kw.name (mem_map_of_mem member) named
  have written : desc.asWritten.noKeywords = true →
      ∀ h, markedHash (asKeywords tables desc) args = some h → hashPairsSnapshot h ≠ [] := by
    intro refuses h marked
    obtain ⟨noKws, noKwrest⟩ := desc.nilAlone refuses
    have same : asKeywords tables desc = tables := by
      funext addr
      simp [asKeywords, ParamDesc.hasKeywords, noKws, noKwrest]
    rw [same, unrefused refuses] at marked
    cases marked
  have lambda := fun w => bindBlock_lambda_ok_iff lossy tables arrays toAry desc args w reads
  have method := fun w => bind_ok_iff lossy (asKeywords tables desc) w written
  simp only [pairs, positional, accepts_iff, placement_asWritten, slotCount_asWritten] at method
  constructor
  · constructor
    · rintro ⟨w, bound⟩
      obtain ⟨within, required, -⟩ := (lambda w).mp bound
      exact ⟨_, (method _).mpr ⟨⟨⟨required, known⟩, within⟩, rfl⟩⟩
    · rintro ⟨w, bound⟩
      obtain ⟨⟨fit, within⟩, -⟩ := (method w).mp bound
      exact ⟨_, (lambda _).mpr ⟨within, fit.required, rfl⟩⟩
  · intro w w' bound bound'
    obtain ⟨within, -, same⟩ := (lambda w).mp bound
    obtain ⟨-, same'⟩ := (method w').mp bound'
    exact blockEntries_wrote lossy desc _ _ within.1 w w' same same'

end Block

/-- `->(k: 1) {}`. -/
def optionalKeyword : ParamDesc where
  nreq := 0
  nopt := 0
  npost := 0
  rest := .none
  kwrest := .none
  noKeywords := false
  implicitRest := false
  kws := [⟨"k", false⟩]
  name := "m"
  fits := by decide
  nilAlone := by simp
  trailingComma := noTrailingComma

/-- The hash of a call `f.(k: nil)`. -/
def nilGiven (_ : Addr) : RHashData plainMap :=
  let data : RHashData plainMap := RHashData.new .nil
  { data with
    repr := .small [(HashKey.symbol (.text "k"), (.symbol (.text "k"), .nil))]
    kwMarked := true }

/-- The lambda runs the default of a keyword that the method takes as given. -/
theorem lambda_keyword_nil_absent :
    ∃ w w', bindBlock (fun _ _ => "") nilGiven (fun _ => []) (fun _ => .ok none) ⟨false, true⟩
        optionalKeyword [.hash 0] = .ok w ∧
      bind (fun _ _ => "") nilGiven optionalKeyword [.hash 0] = .ok w' ∧
        w.present.getLsbD 0 = false ∧ w'.present.getLsbD 0 = true :=
  ⟨_, _, rfl, rfl, rfl, rfl⟩

theorem nilGiven_tableOk : TableOk plainWorld (nilGiven 0) where
  sound := ⟨pairwise_singleton .., fun rows same => by cases same; decide⟩
  agrees row mem := by
    obtain rfl := mem_singleton.mp mem
    exact ⟨.symbol (.text "k"), rfl, by decide⟩

/-- On that call the lambda and the method both succeed. -/
theorem lambda_binds_like_method_nilGiven :
    (∀ h, trailingHash nilGiven [.hash 0] = some h → TableOk plainWorld h) ∧
      ((∃ w, bindBlock (fun _ _ => "") nilGiven (fun _ => []) (fun _ => .ok none) ⟨false, true⟩
          optionalKeyword [.hash 0] = .ok w) ↔
        ∃ w, bind (fun _ _ => "") (asKeywords nilGiven optionalKeyword) optionalKeyword.asWritten
          [.hash 0] = .ok w) := by
  have stored : ∀ h, trailingHash nilGiven [.hash 0] = some h → TableOk plainWorld h := by
    intro h trailing
    cases trailing
    exact nilGiven_tableOk
  have pairs : blockPairs nilGiven optionalKeyword [.hash 0] = [(.symbol (.text "k"), .nil)] := rfl
  refine ⟨stored, (lambda_binds_like_method (fun _ _ => "") nilGiven eqlSame_laws
    (listIndexMap_lawful _ _) plainWorld ?_ _ _ optionalKeyword [.hash 0] stored ?_ ?_ ?_).1⟩
  · intro addr s wraps
    cases wraps
  · intro _ pair member
    rw [pairs, mem_singleton] at member
    rw [member]
    decide
  · intro refuses
    cases refuses
  · intro pair member name declared _
    rw [pairs, mem_singleton] at member
    rw [member, mem_singleton.mp declared]

end Zeo.Capi
