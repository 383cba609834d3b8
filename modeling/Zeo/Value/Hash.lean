import Zeo.Value.HashKey
import Zeo.Value.HashRepr

/-!
# Hash operations

The functions that read and write a Hash through projected keys, and the steps a program can
take on its hashes. A Hash records once whether it compares by identity, and every row carries
the projection it was stored under; the two are written by different functions.
-/

namespace Zeo.Value

open Zeo.Lib

inductive Outcome (α : Type) where
  /-- The native stack is exhausted and the process dies. -/
  | overflow
  | raised (message : String)
  | done (result : α)

def Outcome.bind {α β : Type} : Outcome α → (α → Outcome β) → Outcome β
  | .overflow, _ => .overflow
  | .raised message, _ => .raised message
  | .done a, f => f a

instance : Monad Outcome where
  pure := .done
  bind := Outcome.bind

instance : LawfulMonad Outcome := LawfulMonad.mk' Outcome
  (fun x => by cases x <;> rfl)
  (fun _ _ => rfl)
  (fun x _ _ => by cases x <;> rfl)

theorem Outcome.bind_eq_done {α β : Type} (x : Outcome α) (f : α → Outcome β) (result : β) :
    (x >>= f) = .done result ↔ ∃ a, x = .done a ∧ f a = .done result := by
  change Outcome.bind x f = .done result ↔ _
  cases x with
  | overflow | raised message | done a => simp [Outcome.bind]

structure Running where
  next : Addr
  /-- Whether a `hash` of the program has raised and waits to be reported. -/
  parked : Bool

/-- `key_raise_pending` after a projection. -/
def Running.park (run : Running) (raised : Bool) : Running :=
  { run with parked := run.parked || raised }

def Projected.run {α : Type} (x : Projected α) (run : Running) : Outcome (α × Running) :=
  match x with
  | .overflow => .overflow
  | .found a raised => .done (a, run.park raised)

/-- The table of a large hash: under each projected key the pair it was stored as. -/
abbrev ValueMap (eql : UserEql) : Type 1 := IndexMap (Key eql) (RubyValue × RubyValue)

section Operations

variable {eql : UserEql} {im : ValueMap eql}

/-- `StrProbe::equivalent`. -/
def strEquivalent (buf : StrBuf) : HashKey → Bool
  | .str bytes tag => tag == buf.hashKeyTag && bytes == buf.bytes
  | _ => false

/-- `StrProbe`: the borrowed form of a string's key. -/
def strProbe (buf : StrBuf) : Probe (Key eql) where
  key := HashKey.str buf.bytes buf.hashKeyTag
  equivalent := strEquivalent buf
  agrees stored := by
    change strEquivalent buf stored = HashKey.beq eql _ stored
    cases stored with
    | str bytes tag =>
      simp only [strEquivalent, HashKey.beq, Bool.and_comm (tag == _)]
      rw [Bool.beq_comm (a := bytes), Bool.beq_comm (a := tag)]
    | _ => rfl

variable (w : World)

/-- The probe a lookup runs: the borrowed string outside identity comparison, else the owned
projection. -/
def probeOf (byIdentity : Bool) (key : RubyValue) : Projected (Probe (Key eql)) :=
  match key, byIdentity with
  | .str s, false => pure (strProbe (w.strBuf s))
  | key, byIdentity => do
    let k ← hashKeyIn w key byIdentity
    pure (.ofKey k)

def HashValuesIter.toList {K V : Type} : HashValuesIter K V → List V
  | .small rows => rows.map (·.2)
  | .big values => values

def HashPairsIter.toList {K V : Type} : HashPairsIter K V → List (K × V)
  | .small rows => rows
  | .big rows => rows

def hashPairsSnapshot (data : RHashData im) : Pairs := data.values.toList

/-- `hash_keys`: the original keys in order. -/
def hashKeys (data : RHashData im) : List RubyValue := (hashPairsSnapshot data).map (·.1)

def hashLookup (data : RHashData im) (key : RubyValue) : Projected (Option RubyValue) := do
  let probe ← probeOf w data.compareByIdentity key
  pure ((data.get probe).map (·.2))

def hashHasKey (data : RHashData im) (key : RubyValue) : Projected Bool := do
  let probe ← probeOf w data.compareByIdentity key
  pure (data.containsKey probe)

/-- `hash_get`: the stored value or `nil`, whatever default the hash has. -/
def hashGet (data : RHashData im) (key : RubyValue) : Projected RubyValue := do
  let found ← hashLookup w data key
  pure (found.getD .nil)

/-- `hash_delete`, which keeps what remains. -/
def hashDelete (data : RHashData im) (key : RubyValue) : Projected (RHashData im) := do
  let probe ← probeOf w data.compareByIdentity key
  pure (data.shiftRemove probe).1

variable (run : Running)

/-- `snapshot_key`: outside identity comparison an unfrozen string is stored as a frozen
copy. -/
def snapshotKey (key : RubyValue) (byIdentity : Bool) : RubyValue × Running :=
  match key with
  | .str s =>
    if !byIdentity && !w.isFrozen s then
      (.str (.frozenCopy run.next (w.strBuf s)), { run with next := run.next + 1 })
    else (key, run)
  | key => (key, run)

/-- The borrowed probe `hash_set` tries first for a string. -/
def stringHit (data : RHashData im) : RubyValue → Option Nat
  | .str s => if data.compareByIdentity then none else data.getIndexOf (strProbe (w.strBuf s))
  | _ => none

/-- `hash_set_under`. A key whose `hash` raised is not stored. -/
def hashSetUnder (data : RHashData im) (key value : RubyValue) : Outcome (RHashData im × Running) :=
  match stringHit w data key with
  | some index =>
    let snapshot := snapshotKey w run key false
    .done ((data.getIndexMut index fun _ => (snapshot.1, value)).1, snapshot.2)
  | none => do
    let (k, run) ← (hashKeyIn w key data.compareByIdentity).run run
    if run.parked then .done (data, run)
    else
      let snapshot := snapshotKey w run key data.compareByIdentity
      .done ((data.insert k (snapshot.1, value)).1, snapshot.2)

/-- `hash_set_checked`: while an iteration is live a new key is refused. -/
def hashSetChecked (data : RHashData im) (key value : RubyValue) :
    Outcome (RHashData im × Running) :=
  if 0 < data.iterating then do
    let (present, run) ← (hashHasKey w data key).run run
    if present then hashSetUnder w run data key value
    else .raised "can't add a new key into hash during iteration"
  else hashSetUnder w run data key value

/-- A loop of `hash_set`. -/
def hashSetAll (w : World) (run : Running) (data : RHashData im) :
    Pairs → Outcome (RHashData im × Running)
  | [] => .done (data, run)
  | (key, value) :: rest => do
    let (data, run) ← hashSetUnder w run data key value
    hashSetAll w run data rest

def hashNew (pairs : Pairs) : Outcome (RHashData im × Running) :=
  hashSetAll w run (RHashData.new .nil) pairs

/-- `copy_hash_meta`: the default, the default block and the identity flag. -/
def copyHashMeta (src dst : RHashData im) : RHashData im :=
  { dst with
    default := src.default
    defaultProc := src.defaultProc
    compareByIdentity := src.compareByIdentity }

/-- A fresh hash of some pairs that takes over the meta data of another. -/
def hashNewLike (src : RHashData im) (pairs : Pairs) : Outcome (RHashData im × Running) := do
  let (fresh, run) ← hashNew w run pairs
  .done (copyHashMeta src fresh, run)

/-- The Hash arm of `dup_value`. -/
def dupValue (src : RHashData im) : Outcome (RHashData im × Running) :=
  hashNewLike w run src (hashPairsSnapshot src)

/-- A conflict block: what it returns, or nothing when it raises. -/
abbrev ConflictBlock := RubyValue → RubyValue → RubyValue → Option RubyValue

/-- The value `merge_into` writes for one pair. -/
def mergeValue (target : RHashData im) (block : Option ConflictBlock)
    (key value : RubyValue) : Outcome (RubyValue × Running) :=
  match block with
  | none => .done (value, run)
  | some block => do
    let (present, run) ← (hashHasKey w target key).run run
    if present then
      let (old, run) ← (hashGet w target key).run run
      match block key old value with
      | none => .raised "the block raised"
      | some value => .done (value, run)
    else .done (value, run)

/-- The inner loop of `merge_into`. -/
def mergePairs (w : World) (block : Option ConflictBlock) (run : Running)
    (target : RHashData im) :
    Pairs → Outcome (RHashData im × Running)
  | [] => .done (target, run)
  | (key, value) :: rest => do
    let (value, run) ← mergeValue w run target block key value
    let (target, run) ← hashSetUnder w run target key value
    mergePairs w block run target rest

/-- `merge_into`, on the pairs of each argument. -/
def mergeInto (w : World) (block : Option ConflictBlock) (run : Running)
    (target : RHashData im) :
    List Pairs → Outcome (RHashData im × Running)
  | [] => .done (target, run)
  | pairs :: rest => do
    let (target, run) ← mergePairs w block run target pairs
    mergeInto w block run target rest

/-- `Hash#merge`. -/
def hashMerge (base : RHashData im) (args : List Pairs) (block : Option ConflictBlock) :
    Outcome (RHashData im × Running) := do
  let (fresh, run) ← hashNewLike w run base (hashPairsSnapshot base)
  mergeInto w block run fresh args

/-- `Hash#compact`. -/
def hashCompact (src : RHashData im) : Outcome (RHashData im × Running) :=
  hashNewLike w run src ((hashPairsSnapshot src).filter fun pair => pair.2 ≠ .nil)

/-- The deleting loop of `Hash#replace`. -/
def hashDeleteAll (w : World) (run : Running) (data : RHashData im) :
    List RubyValue → Outcome (RHashData im × Running)
  | [] => .done (data, run)
  | key :: rest => do
    let (data, run) ← (hashDelete w data key).run run
    hashDeleteAll w run data rest

/-- `Hash#replace`. The other hash is read after the deletions, which matters when it is the
receiver: `other` is nothing then. -/
def hashReplace (data : RHashData im) (other : Option (RHashData im)) :
    Outcome (RHashData im × Running) := do
  let (emptied, run) ← hashDeleteAll w run data (hashKeys data)
  hashSetAll w run emptied (hashPairsSnapshot (other.getD emptied))

/-- `hash_enable_compare_by_identity`'s reinsertion of the old pairs. -/
def reinsertByIdentity (w : World) (run : Running) (data : RHashData im) :
    Pairs → Outcome (RHashData im × Running)
  | [] => .done (data, run)
  | (key, value) :: rest => do
    let (k, run) ← (hashKeyIn w key true).run run
    reinsertByIdentity w run (data.insert k (key, value)).1 rest

def hashEnableCompareByIdentity (data : RHashData im) : Outcome (RHashData im × Running) :=
  if data.compareByIdentity then .done (data, run)
  else
    reinsertByIdentity w run { data with compareByIdentity := true }.clear
      (hashPairsSnapshot { data with compareByIdentity := true })

/-- `hash_except_keys`: the rows are copied with their projections into a fresh hash. -/
def hashExceptKeys (src : RHashData im) (names : List String) :
    Outcome (RHashData im × Running) := do
  let (excluded, run) ← (Projected.each (fun name => hashKey w (.symbol (.text name))) names).run run
  let rows := src.iter.toList.filter fun row =>
    !(excluded.any fun (k : Key eql) => k == row.1)
  .done (RHashData.fromRows .nil rows, run)

end Operations

/-- The answer of `eql?` when no class defines its own: the same object. -/
def eqlSame (a b : Addr) : Bool := a == b

theorem eqlSame_laws : EqlLaws eqlSame where
  refl a := by simp [eqlSame]
  symm a b same := by simp_all [eqlSame]
  trans a b c first second := by simp_all [eqlSame]

instance : EquivBEq (Key eqlSame) := Key.equivBEq eqlSame_laws

abbrev plainMap : IndexMap (Key eqlSame) (RubyValue × RubyValue) :=
  listIndexMap (Key eqlSame) (RubyValue × RubyValue)

end Zeo.Value
