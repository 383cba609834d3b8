import Zeo.Value.KeyOrder

/-!
# Hashes as keys

A hash that is used as a key is keyed by its pairs, sorted. Two hashes with the same entries get
equal keys exactly when their entries can be matched in the order of the sort. That fails only where
the sort asks for an address: two keys with the same answer to `hash` are sorted by the addresses of
their objects, and the objects that match them in another hash may lie the other way round.
-/

namespace Zeo.Value

open Zeo.Lib Zeo.Lib.Canonical List HashKey Option Encodable

/-- What `Hash for HashKey` writes to the hasher. -/
inductive Written where
  | tag (n : Nat)
  | num (n : Int)
  | bytes (bs : List UInt8)
  | text (s : String)
deriving DecidableEq

/-- What an end of a range writes, given what its key does. -/
def writtenEnd (key : HashKey) (writes : List Written) : List Written :=
  match key with
  | .nil => [.num 0]
  | _ => .num 1 :: writes

mutual
/-- `HashKey::hash`. The object beside the answer of its `hash` writes nothing. -/
def HashKey.written (sid : Symbol → Nat) : HashKey → List Written
  | .nil => [.tag 0]
  | .recursive => [.tag 17]
  | .bool b => [.tag 1, .num b.toNat]
  | .int i => [.tag 2, .num i]
  | .float bits => [.tag 3, .num bits.toNat]
  | .symbol s => [.tag 4, .num (sid s)]
  | .str bytes tag => [.tag 5, .bytes bytes, .num tag]
  | .array parts => .tag 6 :: .num parts.length :: HashKey.writtenList sid parts
  | .range start finish exclusive =>
    .tag 7 :: (writtenEnd start (HashKey.written sid start) ++
      (writtenEnd finish (HashKey.written sid finish) ++ [.num exclusive.toNat]))
  | .regexp source flags => [.tag 16, .text source, .num flags]
  | .classRef id => [.tag 8, .num id]
  | .computed answer _ => .tag 9 :: HashKey.written sid answer
  | .identity addr => [.tag 10, .num addr]
  | .bigInt n => [.tag 11, .num n]
  | .rational num den => [.tag 12, .num num, .num den]
  | .complex real imag => .tag 13 :: (HashKey.written sid real ++ HashKey.written sid imag)
  | .hash pairs => .tag 17 :: .num pairs.length :: HashKey.writtenPairs sid pairs
termination_by structural key => key

def HashKey.writtenList (sid : Symbol → Nat) : List HashKey → List Written
  | [] => []
  | key :: keys => HashKey.written sid key ++ HashKey.writtenList sid keys
termination_by structural keys => keys

def HashKey.writtenPair (sid : Symbol → Nat) : HashKey × HashKey → List Written
  | (key, value) => HashKey.written sid key ++ HashKey.written sid value
termination_by structural pair => pair

def HashKey.writtenPairs (sid : Symbol → Nat) : List (HashKey × HashKey) → List Written
  | [] => []
  | pair :: pairs => HashKey.writtenPair sid pair ++ HashKey.writtenPairs sid pairs
termination_by structural pairs => pairs
end

section Buckets

variable {eql : UserEql} {sid : Symbol → Nat} {a b : HashKey}

theorem writtenEnd_of_beq (same : beq eql a b = true)
    {writes : List Written} : writtenEnd a writes = writtenEnd b writes := by
  have ranks := rank_of_beq same
  cases a <;> cases b <;> first | rfl | cases ranks

theorem HashKey.writtenList_eq (keys : List HashKey) :
    writtenList sid keys = keys.flatMap (written sid) := by
  induction keys with
  | nil => rfl
  | cons key keys ih => rw [writtenList, flatMap_cons, ih]

theorem HashKey.writtenPairs_eq (pairs : List (HashKey × HashKey)) :
    writtenPairs sid pairs = (children (.hash pairs)).flatMap (written sid) := by
  induction pairs with
  | nil => rfl
  | cons pair pairs ih =>
    obtain ⟨key, value⟩ := pair
    simp [writtenPairs, writtenPair, children_cons, ih]

theorem HashKey.written_of_beq (a b : HashKey) (same : beq eql a b = true) :
    written sid a = written sid b := by
  induction a using HashKey.induction generalizing b with
  | step a ih =>
    obtain ⟨own, -, inside⟩ := (beq_iff a b).mp same
    have writes := flatMap_of_forall₂ inside ih
    have length := inside.length_eq
    have ranks := rank_of_beq same
    cases a <;> cases b <;> cases ranks <;>
      simp_all [bare, children, written, writtenList_eq, writtenPairs_eq]
    -- The ends of a range are written with a mark each.
    rw [ih.1 _ inside.1, ih.2 _ inside.2, writtenEnd_of_beq inside.1, writtenEnd_of_beq inside.2]

end Buckets

/-- One comparison after another, where both are known. -/
def andThen : Option Ordering → Option Ordering → Option Ordering
  | some .eq, later => later
  | first, _ => first

mutual
/-- The comparison of two keys, if it is decided before an address is asked for. -/
def HashKey.verdict (sid : Symbol → Nat) : HashKey → HashKey → Option Ordering
  | .array a, .array b => HashKey.verdictList sid a b
  | .range a b x, .range c d y =>
    andThen (andThen (HashKey.verdict sid a c) (HashKey.verdict sid b d)) (some (compare x y))
  | .computed a _, .computed b _ => andThen (HashKey.verdict sid a b) none
  | .complex a b, .complex c d => andThen (HashKey.verdict sid a c) (HashKey.verdict sid b d)
  | .hash a, .hash b => HashKey.verdictPairs sid a b
  | a, b => some (HashKey.cmp sid a b)
termination_by structural key => key

def HashKey.verdictList (sid : Symbol → Nat) : List HashKey → List HashKey → Option Ordering
  | a :: as, b :: bs => andThen (HashKey.verdict sid a b) (HashKey.verdictList sid as bs)
  | as, bs => some (HashKey.cmpList sid as bs)
termination_by structural keys => keys

def HashKey.verdictPair (sid : Symbol → Nat) :
    HashKey × HashKey → HashKey × HashKey → Option Ordering
  | (a, b), (c, d) => andThen (HashKey.verdict sid a c) (HashKey.verdict sid b d)
termination_by structural pair => pair

def HashKey.verdictPairs (sid : Symbol → Nat) :
    List (HashKey × HashKey) → List (HashKey × HashKey) → Option Ordering
  | a :: as, b :: bs => andThen (HashKey.verdictPair sid a b) (HashKey.verdictPairs sid as bs)
  | as, bs => some (HashKey.cmpPairs sid as bs)
termination_by structural pairs => pairs
end

section Verdicts

variable {eql : UserEql} {sid : Symbol → Nat}

/-- Known comparisons one after the other are the comparison of both components. -/
theorem andThen_sound {first later : Option Ordering} {o p q : Ordering}
    (isFirst : ∀ r, first = some r → o = r) (isLater : ∀ r, later = some r → p = r)
    (known : andThen first later = some q) : o.then p = q := by
  rcases first with _ | _ | _ | _
  · cases known
  · rw [isFirst _ rfl]
    exact some.inj known
  · rw [isFirst _ rfl, isLater q known]
    rfl
  · rw [isFirst _ rfl]
    exact some.inj known

@[simp]
theorem andThen_eq (first : Option Ordering) : andThen first (some .eq) = first := by
  rcases first with _ | _ | _ | _ <;> rfl

theorem andThen_assoc (first second third : Option Ordering) :
    andThen (andThen first second) third = andThen first (andThen second third) := by
  rcases first with _ | _ | _ | _ <;> rfl

variable (as bs : List (HashKey × HashKey))

theorem HashKey.verdictPairs_eq :
    verdictPairs sid as bs = verdictList sid (children (.hash as)) (children (.hash bs)) := by
  induction as generalizing bs with
  | nil => cases bs <;> rfl
  | cons a as ih =>
    obtain ⟨key, value⟩ := a
    cases bs with
    | nil => rfl
    | cons b bs => simp [children_cons, verdictList, verdictPairs, verdictPair, ih, andThen_assoc]

/-- Keys of one variant compare by the keys inside, then by their own data. -/
theorem HashKey.verdict_eq (same : a.rank = b.rank) :
    verdict sid a b = andThen (verdictList sid a.children b.children)
      (if a.object.isSome then none else some (cmp sid a.bare b.bare)) := by
  cases a <;> cases b <;> cases same <;> first
  | rfl
  | simp [verdict, children, bare, object, rank, cmp, cmpList, cmpPairs, verdictList,
      verdictPairs_eq, andThen_assoc]

/-- Between different variants no address is asked for. -/
theorem HashKey.verdict_of_rank (differ : a.rank ≠ b.rank) :
    verdict sid a b = some (compare a.rank b.rank) := by
  cases a <;> cases b <;> first | rfl | exact absurd rfl differ

/-- A comparison of lists that is known is the comparison of the lists if this holds of the keys. -/
theorem HashKey.cmpList_of_verdict : ∀ (as bs : List HashKey) (o : Ordering),
    (∀ a ∈ as, ∀ b o, verdict sid a b = some o → cmp sid a b = o) →
      verdictList sid as bs = some o → cmpList sid as bs = o
  | [], _, _, _, known | _ :: _, [], _, _, known => some.inj known
  | _ :: as, b :: bs, _, sound, known =>
    have both := forall_mem_cons.mp sound
    andThen_sound (both.1 b) (fun o => cmpList_of_verdict as bs o both.2) known

theorem HashKey.cmp_of_verdict (a b : HashKey) (o : Ordering) (known : verdict sid a b = some o) :
    cmp sid a b = o := by
  induction a using HashKey.induction generalizing b o with
  | step a ih =>
    by_cases ranks : a.rank = b.rank
    · rw [verdict_eq ranks] at known
      rw [cmp_eq a b, ranks, Std.compare_self, Ordering.eq_then]
      refine andThen_sound (fun o => cmpList_of_verdict _ _ o ih) (fun o own => ?_) known
      split at own
      · cases own
      · rename_i without
        have plain : a.object = b.object := by
          cases a <;> cases b <;> cases ranks <;> first | rfl | exact absurd rfl without
        rw [← some.inj own, plain, Std.compare_self, Ordering.then_eq]
    · rw [verdict_of_rank ranks] at known
      rw [cmp_of_rank (beq_eq_false_iff_ne.mpr ranks), some.inj known]

theorem HashKey.cmpPair_of_verdict : ∀ (a b : HashKey × HashKey) (o : Ordering),
    verdictPair sid a b = some o → cmpPair sid a b = o
  | (a, a'), (b, b'), _, known => andThen_sound (cmp_of_verdict a b) (cmp_of_verdict a' b') known

/-- Equal lists compare alike if their keys do, as far as no address is asked for. -/
theorem HashKey.verdictList_congr {as as' bs bs' : List HashKey}
    (left : Forall₂ (beq eql · · = true) as as') (right : Forall₂ (beq eql · · = true) bs bs')
    (congr : ∀ a ∈ as, ∀ a' b b', beq eql a a' = true → beq eql b b' = true →
      verdict sid a b = verdict sid a' b') :
    verdictList sid as bs = verdictList sid as' bs' := by
  induction left generalizing bs bs' with
  | nil => cases right <;> rfl
  | cons here _ ih =>
    obtain ⟨first, rest⟩ := forall_mem_cons.mp congr
    cases right with
    | nil => rfl
    | cons there right => rw [verdictList, verdictList, first _ _ _ here there, ih right rest]

/-- Equal keys compare alike, as far as no address is asked for. -/
theorem HashKey.verdict_congr {a a' b b' : HashKey} (left : beq eql a a' = true)
    (right : beq eql b b' = true) : verdict sid a b = verdict sid a' b' := by
  induction a using HashKey.induction generalizing a' b b' with
  | step a ih =>
    have leftRank := rank_of_beq left
    have rightRank := rank_of_beq right
    by_cases ranks : a.rank = b.rank
    · obtain ⟨own, objects, inside⟩ := (beq_iff a a').mp left
      obtain ⟨own', -, inside'⟩ := (beq_iff b b').mp right
      have asked : a.object.isSome = a'.object.isSome := by
        generalize a.object = x at objects ⊢
        generalize a'.object = y at objects ⊢
        cases objects <;> rfl
      rw [verdict_eq ranks, verdict_eq (by rw [← leftRank, ranks, rightRank]), own, own', asked,
        verdictList_congr inside inside' ih]
    · rw [verdict_of_rank ranks, verdict_of_rank (by rwa [← leftRank, ← rightRank]), leftRank,
        rightRank]

/-- Equal pairs compare alike, as far as no address is asked for. -/
theorem HashKey.verdictPair_congr : ∀ a a' b b' : HashKey × HashKey,
    beqPair eql a a' = true → beqPair eql b b' = true →
      verdictPair sid a b = verdictPair sid a' b'
  | (key, value), (_, _), (_, _), (_, _), left, right => by
    simp only [beqPair, Bool.and_eq_true] at left right
    simp only [verdictPair, verdict_congr left.1 right.1,
      verdict_congr left.2 right.2]

/-- Of any two different pairs of a list, the comparison asks for no address. -/
def Settled (sid : Symbol → Nat) (ps : List (HashKey × HashKey)) : Prop :=
  ∀ p ∈ ps, ∀ q ∈ ps, p ≠ q → HashKey.verdictPair sid p q ≠ none

theorem keepsOrder_of_settled {ps qs : List (HashKey × HashKey)}
    {zs : List ((HashKey × HashKey) × (HashKey × HashKey))}
    (matching : Matching (fun p q => beqPair eql p q = true) ps qs zs)
    (settled : Settled sid ps) : KeepsOrder (cmpPair sid) zs := by
  intro x isX y isY before
  have inFirst : ∀ z ∈ zs, z.1 ∈ ps := fun z mem =>
    matching.left.mem_iff.mp (mem_map_of_mem mem)
  have different : x.1 ≠ y.1 := by
    intro same
    rw [same] at before
    exact absurd (before.symm.trans Std.ReflCmp.compare_self) (by decide)
  have known := settled x.1 (inFirst x isX) y.1 (inFirst y isY) different
  obtain ⟨o, isO⟩ := ne_none_iff_exists'.mp known
  have same : verdictPair sid x.1 y.1 = verdictPair sid x.2 y.2 :=
    verdictPair_congr _ _ _ _ (matching.related x isX) (matching.related y isY)
  have left := cmpPair_of_verdict _ _ o isO
  have right := cmpPair_of_verdict _ _ o (same.symm.trans isO)
  rw [right, ← left, before]
  decide

end Verdicts

def projectedPairs (w : World) (depth : Nat) (addr : Addr) (seen : List Addr) :
    Projected (List (HashKey × HashKey)) :=
  Projected.each
    (fun pair => do
      let key ← hashKeyRec w depth pair.1 false (addr :: seen)
      let value ← hashKeyRec w depth pair.2 false (addr :: seen)
      pure (key, value))
    (w.hashPairs addr)

theorem hashKeyRec_hash {w : World} {depth : Nat} {addr : Addr} {seen : List Addr}
    (fresh : addr ∉ seen) {ps : List (HashKey × HashKey)} {raised : Bool}
    (pairs : projectedPairs w depth addr seen = .found ps raised) :
    hashKeyRec w (depth + 1) (.hash addr) false seen =
      .found (.hash (sortPairs w.symbolId ps)) raised := by
  have unfolded : hashKeyRec w (depth + 1) (.hash addr) false seen =
      if addr ∈ seen then pure .recursive
      else projectedPairs w depth addr seen >>= fun ps =>
        pure (.hash (sortPairs w.symbolId ps)) := rfl
  rw [unfolded, if_neg fresh, pairs]
  change Projected.park raised (.found _ false) = _
  rw [Projected.park, Bool.or_false]

section Hashes

variable {eql : UserEql} {sid : Symbol → Nat}

theorem beqPairs_iff_forall₂ :
    beqPairs eql as bs = true ↔
      List.Forall₂ (fun p q => beqPair eql p q = true) as bs := by
  induction as generalizing bs with
  | nil => cases bs <;> simp [beqPairs]
  | cons a as ih => cases bs <;> simp [beqPairs, ih]

/-- The keys of two lists of pairs are equal exactly when a matching of the pairs keeps the
order. -/
theorem sortPairs_beq_iff (eql : UserEql) (injective : Function.Injective sid)
    (ps qs : List (HashKey × HashKey)) :
    beqPairs eql (sortPairs sid ps) (sortPairs sid qs) = true ↔
      ∃ zs, Matching (fun p q => beqPair eql p q = true) ps qs zs ∧
        KeepsOrder (cmpPair sid) zs := by
  have lawful := lawful_cmpPair injective
  rw [beqPairs_iff_forall₂]
  exact forall₂_sort_iff (cmpPair sid)

theorem beqList_around (laws : EqlLaws eql) (before after : List HashKey) (a b : HashKey) :
    beqList eql (before ++ a :: after) (before ++ b :: after) = beq eql a b := by
  induction before with
  | nil =>
    have rest := (beqList_iff after after).mpr (forall₂_same.mpr fun c _ => beq_refl laws c)
    simp [beqList, rest]
  | cons c before ih => simp [beqList, beq_refl laws c, ih]

/-- Two hashes, anywhere in a projection, have equal keys that write the same to the hasher exactly
when their entries can be matched, key and value equal to key and value, in the order of the sort.
Where no two entries of one of them are told apart by an address, every matching will do. Inside an
array the two count as equal exactly when they do by themselves. -/
theorem hashKey_hash_iff (laws : EqlLaws eql) (w : World)
    (injective : Function.Injective w.symbolId) {depth₁ depth₂ : Nat} {h₁ h₂ : Addr}
    {seen₁ seen₂ : List Addr} (fresh₁ : h₁ ∉ seen₁) (fresh₂ : h₂ ∉ seen₂)
    {ps qs : List (HashKey × HashKey)} {raised₁ raised₂ : Bool}
    (first : projectedPairs w depth₁ h₁ seen₁ = .found ps raised₁)
    (second : projectedPairs w depth₂ h₂ seen₂ = .found qs raised₂) :
    ∃ k₁ k₂, hashKeyRec w (depth₁ + 1) (.hash h₁) false seen₁ = .found k₁ raised₁ ∧
      hashKeyRec w (depth₂ + 1) (.hash h₂) false seen₂ = .found k₂ raised₂ ∧
      ((HashKey.beq eql k₁ k₂ = true ∧
          HashKey.written w.symbolId k₁ = HashKey.written w.symbolId k₂) ↔
        ∃ zs, Matching (fun p q => HashKey.beqPair eql p q = true) ps qs zs ∧
          KeepsOrder (HashKey.cmpPair w.symbolId) zs) ∧
      (Settled w.symbolId ps →
        ∀ zs, Matching (fun p q => HashKey.beqPair eql p q = true) ps qs zs →
          HashKey.beq eql k₁ k₂ = true ∧
            HashKey.written w.symbolId k₁ = HashKey.written w.symbolId k₂) ∧
      ∀ before after, HashKey.beq eql (.array (before ++ k₁ :: after))
        (.array (before ++ k₂ :: after)) = HashKey.beq eql k₁ k₂ := by
  refine ⟨_, _, hashKeyRec_hash fresh₁ first, hashKeyRec_hash fresh₂ second, ?_⟩
  have equal := sortPairs_beq_iff eql injective ps qs
  have bucket : ∀ k₁ k₂, HashKey.beq eql k₁ k₂ = true →
      HashKey.written w.symbolId k₁ = HashKey.written w.symbolId k₂ := HashKey.written_of_beq
  refine ⟨⟨fun same => equal.mp same.1, fun ordered => ?_⟩, fun settled zs matching => ?_,
    fun before after => beqList_around laws before after _ _⟩
  · have same := equal.mpr ordered
    exact ⟨same, bucket _ _ same⟩
  · have same := equal.mpr ⟨zs, matching, keepsOrder_of_settled matching settled⟩
    exact ⟨same, bucket _ _ same⟩

end Hashes

def symbolNumber : Symbol → Nat
  | .text name => 2 * encode (name.toList.map Char.toNat)
  | .keyed enc bytes => 2 * encode (enc.val :: bytes.map UInt8.toNat) + 1

theorem symbolNumber_injective : Function.Injective symbolNumber := by
  intro a b same
  cases a with
  | text name =>
    cases b with
    | text other =>
      have codes : encode (name.toList.map Char.toNat) =
          encode (other.toList.map Char.toNat) := by
        simp only [symbolNumber] at same
        omega
      have toNat_injective : Function.Injective Char.toNat :=
        fun _ _ values => Char.ext (UInt32.toNat_inj.mp values)
      have chars := map_injective_iff.mpr toNat_injective (encode_injective codes)
      rw [String.toList_inj.mp chars]
    | keyed enc bytes =>
      simp only [symbolNumber] at same
      omega
  | keyed enc bytes =>
    cases b with
    | text other =>
      simp only [symbolNumber] at same
      omega
    | keyed enc' bytes' =>
      have codes : encode (enc.val :: bytes.map UInt8.toNat) =
          encode (enc'.val :: bytes'.map UInt8.toNat) := by
        simp only [symbolNumber] at same
        omega
      obtain ⟨encs, texts⟩ := List.cons.inj (encode_injective codes)
      have toNat_injective : Function.Injective UInt8.toNat := fun _ _ => UInt8.toNat_inj.mp
      rw [Fin.ext encs, map_injective_iff.mpr toNat_injective texts]

theorem one_inI64 : -2 ^ 63 ≤ (1 : Int) ∧ (1 : Int) < 2 ^ 63 := by omega

theorem two_inI64 : -2 ^ 63 ≤ (2 : Int) ∧ (2 : Int) < 2 ^ 63 := by omega

/-- Objects of a class whose `hash` is always 1, and two hashes with two of them as keys. -/
def collidingWorld : World where
  stackDepth := 2
  symbolId := symbolNumber
  str _ := ⟨[], Enc.ascii8bit⟩
  strFrozen _ := false
  bigInt _ := 0
  rational _ := (0, 1)
  complex _ := (.nil, .nil)
  array _ := []
  hashPairs addr :=
    if addr = 1 then
      [(.object 10, .int ⟨1, one_inI64⟩), (.object 20, .int ⟨2, two_inI64⟩)]
    else [(.object 30, .int ⟨2, two_inI64⟩), (.object 40, .int ⟨1, one_inI64⟩)]
  range _ := (.nil, .nil, false)
  regexp _ := ⟨"", false, false, false⟩
  matchData _ := ⟨[], ⟨"", false, false, false⟩, []⟩
  userHash _ := .returned (.int ⟨1, one_inI64⟩)
  builtinPayload _ := none

/-- The object that stands for those it is `eql?` to: 10 for itself and 40, 20 for itself and 30. -/
def collidingClass (addr : Addr) : Addr :=
  if addr = 40 then 10 else if addr = 30 then 20 else addr

/-- Their `eql?`. -/
def collidingEql (a b : Addr) : Bool := collidingClass a == collidingClass b

theorem collidingEql_laws : EqlLaws collidingEql where
  refl a := beq_self_eq_true _
  symm a b same := by
    unfold collidingEql at same ⊢
    rwa [Bool.beq_comm]
  trans a b c first second := by
    unfold collidingEql at first second ⊢
    rw [beq_iff_eq] at first second ⊢
    exact first.trans second

def collidingFirst : List (HashKey × HashKey) :=
  [(.computed (.int 1) 10, .int 1), (.computed (.int 1) 20, .int 2)]

def collidingSecond : List (HashKey × HashKey) :=
  [(.computed (.int 1) 30, .int 2), (.computed (.int 1) 40, .int 1)]

/-- With `a.eql?(a2)` and `b.eql?(b2)`, all four of one `hash`, `{a => 1, b => 2}` and
`{a2 => 1, b2 => 2}` are different keys when `a` lies before `b` and `b2` before `a2`. -/
theorem colliding_keys_differ :
    EqlLaws collidingEql ∧
      Matching (fun p q => HashKey.beqPair collidingEql p q = true) collidingFirst collidingSecond
        [(collidingFirst[0], collidingSecond[1]), (collidingFirst[1], collidingSecond[0])] ∧
      hashKey collidingWorld (.hash 1) = pure (.hash collidingFirst) ∧
      hashKey collidingWorld (.hash 2) = pure (.hash collidingSecond) ∧
      HashKey.beq collidingEql (.hash collidingFirst) (.hash collidingSecond) = false := by
  refine ⟨collidingEql_laws, ⟨.refl _, .swap _ _ _, by decide⟩, ?_, ?_, rfl⟩
  · have sorted : HashKey.sortPairs symbolNumber collidingFirst = collidingFirst :=
      mergeSort_of_pairwise (by decide)
    rw [← sorted]
    rfl
  · have sorted : HashKey.sortPairs symbolNumber collidingSecond = collidingSecond :=
      mergeSort_of_pairwise (by decide)
    rw [← sorted]
    rfl

/-- The two hashes, and what makes their keys equal. -/
theorem hashKey_hash_iff_colliding :
    projectedPairs collidingWorld 2 1 [] = .found collidingFirst false ∧
      projectedPairs collidingWorld 2 2 [] = .found collidingSecond false ∧
      ∃ k₁ k₂, hashKeyRec collidingWorld 3 (.hash 1) false [] = .found k₁ false ∧
        hashKeyRec collidingWorld 3 (.hash 2) false [] = .found k₂ false ∧
        ((HashKey.beq collidingEql k₁ k₂ = true ∧
            HashKey.written symbolNumber k₁ = HashKey.written symbolNumber k₂) ↔
          ∃ zs, Matching (fun p q => HashKey.beqPair collidingEql p q = true) collidingFirst
            collidingSecond zs ∧ KeepsOrder (HashKey.cmpPair symbolNumber) zs) := by
  have first : projectedPairs collidingWorld 2 1 [] = .found collidingFirst false := rfl
  have second : projectedPairs collidingWorld 2 2 [] = .found collidingSecond false := rfl
  obtain ⟨k₁, k₂, isFirst, isSecond, iff, -⟩ := hashKey_hash_iff collidingEql_laws collidingWorld
    symbolNumber_injective not_mem_nil not_mem_nil first second
  exact ⟨first, second, k₁, k₂, isFirst, isSecond, iff⟩

end Zeo.Value
