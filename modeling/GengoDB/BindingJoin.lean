/-
Joins on SPARQL bindings, as `RelAlgToSubOp` lowers them. A join key flagged
`bindingCompatible` matches when the two values are equal or one of them is
null (an unbound variable is compatible with everything), and a null build
key takes the probe side's value in the joined row.

There are two translations. The nested loop forms every pair, fills the null
build keys and applies the join predicate. The hash join splits the build
side: rows without a null key go to a hash table, the others to a buffer
that every probe row is paired with, and a probe row with a null key is also
paired with every row of the table. The join predicate keeps its
compatibility conjuncts, so it runs again over the three branches.

The multimap of the hash join is the hash-indexed view the default pipeline
turns it into: every entry keeps its own key.
-/
import Mathlib.Data.Multiset.Bind
import Mathlib.Data.Multiset.Filter

namespace GengoDB.BindingJoin

open Multiset

variable {A B V H : Type*}

/-- Equality and hash of the values of key columns. `hashInto` is `db.hash`
of one value on top of the hash of the keys before it. -/
structure KeyType (V H : Type*) where
  eq : V → V → Bool
  hashInto : Option H → Option V → H
  refl : ∀ v, eq v v = true
  symm : ∀ v w, eq v w = true → eq w v = true
  trans : ∀ u v w, eq u v = true → eq v w = true → eq u w = true
  hash_eq : ∀ h v w, eq v w = true → hashInto h (some v) = hashInto h (some w)

/-- A row whose columns are typed: a column that is not nullable has a value. -/
structure Row {C : Type*} (nullable : C → Bool) (V : Type*) where
  val : C → Option V
  typed : ∀ c, nullable c = false → (val c).isSome = true

/-- One key of the join: its probe column (`hashLeft`), its build column
(`hashRight`), and its entries in `nullsEqual` and `bindingCompatible`. -/
structure JoinKey (A B : Type*) where
  probe : A
  build : B
  nullsEqual : Bool
  bindingCompatible : Bool

/-- A joined tuple: the stored build columns and the probe tuple. -/
abbrev Joined (A B V : Type*) := (B → Option V) × (A → Option V)

/-! ## The pieces of the translations -/

variable (K : KeyType V H)

/-- `compareOperands` under `db.derive_truth`: a null operand makes the
comparison unknown, unless nulls are to be equal and both are null. -/
def compareOperands (useIsa : Bool) : Option V → Option V → Bool
  | some l, some r => K.eq l r
  | none, none => useIsa
  | _, _ => false

variable (keys : List (JoinKey A B))

/-- `createEqFn` on a stored build row and a probe tuple. -/
def eqFn (stored : B → Option V) (tuple : A → Option V) :
    Bool :=
  keys.all fun k => compareOperands K k.nullsEqual (stored k.build) (tuple k.probe)

/-- The columns `nullMatchCols` of one side, given as `side` of a key. -/
def nullMatchCols {C : Type*} (nullable : C → Bool) (side : JoinKey A B → C) (keys : List (JoinKey A B)) : List C :=
  (keys.filter fun k => k.bindingCompatible && nullable (side k)).map side

/-- `computeNullKeyMarker`: no marker where no flagged key is nullable,
otherwise whether one of them is null. -/
def computeNullKeyMarker {C : Type*} (nullable : C → Bool) (side : JoinKey A B → C)
    (keys : List (JoinKey A B)) : Option ((C → Option V) → Bool) :=
  match nullMatchCols nullable side keys with
  | [] => none
  | cols => some fun row => cols.any fun c => (row c).isNone

/-- The `fillPairs` of the build side: target and source column. -/
def fillPairs (nullable : B → Bool) (keys : List (JoinKey A B)) : List (B × A) :=
  (keys.filter fun k => k.bindingCompatible && nullable k.build).map fun k => (k.build, k.probe)

/-- The pairs that survive `redirectedMembers`: a member is redirected by the
first pair that targets it. -/
def fills [DecidableEq B] (redirectedMembers : List B) : List (B × A) → List (B × A)
  | [] => []
  | (target, source) :: pairs =>
    if target ∈ redirectedMembers then fills redirectedMembers pairs
    else (target, source) :: fills (target :: redirectedMembers) pairs

/-- `applyFillIn` on one stored row and the probe tuple. -/
def applyFillIn [DecidableEq B] (pairs : List (B × A)) (stored : B → Option V) (tuple : A → Option V) : Joined A B V :=
  (fun c =>
    match (fills [] pairs).find? fun p => p.1 = c with
    | some (_, source) => if (stored c).isNone then tuple source else stored c
    | none => stored c,
   tuple)

/-- The hash of a row's keys. -/
def hashKeys (K : KeyType V H) : Option H → List (Option V) → Option H
  | h, [] => h
  | h, v :: vs => hashKeys K (some (K.hashInto h v)) vs

/-- The hash table: `slot` is the directory entry of a hash, `compareHash`
is `compareHashForLookup`. -/
structure HashTable (H : Type*) where
  slot : Option H → Nat
  compareHash : Bool

/-- A lookup walks the chain of the probe key's slot and keeps what `eqFn`
accepts. -/
def HashTable.lookup [DecidableEq H] (T : HashTable H) (K : KeyType V H) (keys : List (JoinKey A B))
    (rows : Multiset (B → Option V)) (tuple : A → Option V) : Multiset (B → Option V) :=
  let h := hashKeys K none (keys.map fun k => tuple k.probe)
  rows.filter fun stored =>
    let h' := hashKeys K none (keys.map fun k => stored k.build)
    T.slot h' = T.slot h ∧ (T.compareHash = true → h' = h) ∧ eqFn K keys stored tuple = true

/-! ## The two translations -/

section Translations

variable [DecidableEq B] {Out : Type*} {nullableA : A → Bool} {nullableB : B → Bool}

/-- `translateHJBindingCompatible`: per probe tuple the union of the lookup,
of the null-keyed build rows with their keys filled in, and, for a tuple with
a null key, of the rows of the table. `fn` is what the join makes of it. -/
def translateHJBindingCompatible [DecidableEq H] (T : HashTable H) (K : KeyType V H)
    (keys : List (JoinKey A B)) (left : Multiset (Row nullableA V)) (right : Multiset (Row nullableB V))
    (fn : (A → Option V) → Multiset (Joined A B V) → Multiset Out) : Multiset Out :=
  let buildMarker := computeNullKeyMarker (V := V) nullableB JoinKey.build keys
  let probeMarker := computeNullKeyMarker (V := V) nullableA JoinKey.probe keys
  let rows := right.map Row.val
  let nullKeyBuffer := match buildMarker with
    | some marker => rows.filter fun r => marker r = true
    | none => 0
  let rightNonNull := match buildMarker with
    | some marker => rows.filter fun r => marker r = false
    | none => rows
  left.bind fun tuple =>
    let looked := (T.lookup K keys rightNonNull tuple.1).map fun stored => (stored, tuple.1)
    let filled := nullKeyBuffer.map fun stored => applyFillIn (fillPairs nullableB keys) stored tuple.1
    let full := match probeMarker with
      | some marker => if marker tuple.1 then rightNonNull.map fun stored => (stored, tuple.1) else 0
      | none => 0
    fn tuple.1 (looked + filled + full)

/-- `translateNLJBindingCompatible`: every pair, filled in where a flagged
build key is nullable. -/
def translateNLJBindingCompatible (keys : List (JoinKey A B)) (left : Multiset (Row nullableA V))
    (right : Multiset (Row nullableB V)) (fn : (A → Option V) → Multiset (Joined A B V) → Multiset Out) :
    Multiset Out :=
  let rows := right.map Row.val
  left.bind fun tuple =>
    match fills [] (fillPairs nullableB keys) with
    | [] => fn tuple.1 (rows.map fun stored => (stored, tuple.1))
    | _ => fn tuple.1 (rows.map fun stored => applyFillIn (fillPairs nullableB keys) stored tuple.1)

end Translations

/-! ## What the joins make of the pairs -/

/-- `GpmBindingsCompatibleLowering`: true where an operand is null, else the
truth of the comparison. -/
def bindingsCompatible : Option V → Option V → Bool
  | some l, some r => K.eq l r
  | _, _ => true

/-- The join predicate of an inner join, whose left operand is the build
side. The compatibility conjuncts stay in it; a key that is not flagged is
decided by the lookup alone. -/
def innerPredicate (j : Joined A B V) : Bool :=
  (keys.filter JoinKey.bindingCompatible).all fun k => bindingsCompatible K (j.1 k.build) (j.2 k.probe)

/-- The join predicate of an outer join, whose left operand is the probe side. -/
def outerPredicate (j : Joined A B V) : Bool :=
  (keys.filter JoinKey.bindingCompatible).all fun k => bindingsCompatible K (j.2 k.probe) (j.1 k.build)

/-- `InnerJoinNLLowering`: the selection. -/
def innerJoin (_ : A → Option V) (pairs : Multiset (Joined A B V)) : Multiset (Joined A B V) :=
  pairs.filter fun j => innerPredicate K keys j = true

/-- `OuterJoinLowering`: the selected pairs with the build columns mapped to
nullable ones, and the tuple with these columns null where there is none. -/
def outerJoin (tuple : A → Option V) (pairs : Multiset (Joined A B V)) : Multiset (Joined A B V) :=
  let filtered := pairs.filter fun j => outerPredicate K keys j = true
  let filteredNoMatch : Multiset (Joined A B V) := if filtered.card = 0 then {(fun _ => none, tuple)} else 0
  filtered + filteredNoMatch

/-! ## The specification -/

/-- For every key the two values are equal or one of them is null. -/
def Compatible (stored : B → Option V) (tuple : A → Option V) :
    Prop :=
  ∀ k ∈ keys, ∀ b, b ∈ stored k.build → ∀ p, p ∈ tuple k.probe → K.eq b p = true

instance (stored : B → Option V) (tuple : A → Option V) : Decidable (Compatible K keys stored tuple) :=
  inferInstanceAs (Decidable (∀ k ∈ keys, _))

/-- The build row with its null keys replaced by the probe side's values. -/
def merge [DecidableEq B] (keys : List (JoinKey A B)) (stored : B → Option V) (tuple : A → Option V) :
    B → Option V := fun c =>
  match stored c with
  | some v => some v
  | none => (keys.find? fun k => k.build = c).bind fun k => tuple k.probe

section Spec

variable [DecidableEq B] {nullableA : A → Bool} {nullableB : B → Bool}

/-- The rows a tuple contributes: one per compatible build row, merged. -/
def partners (K : KeyType V H) (keys : List (JoinKey A B)) (right : Multiset (Row nullableB V))
    (tuple : A → Option V) : Multiset (Joined A B V) :=
  (right.filter fun r => Compatible K keys r.1 tuple).map fun r => (merge keys r.1 tuple, tuple)

/-- The same with the merge before the test: a build row is kept if it is
compatible once its null keys have taken the tuple's values. -/
def partnersMerged (K : KeyType V H) (keys : List (JoinKey A B)) (right : Multiset (Row nullableB V))
    (tuple : A → Option V) : Multiset (Joined A B V) :=
  (right.map fun r => (merge keys r.1 tuple, tuple)).filter fun j => Compatible K keys j.1 j.2

/-- The inner join with the given partners. -/
def specInner (partners : (A → Option V) → Multiset (Joined A B V)) (left : Multiset (Row nullableA V)) :
    Multiset (Joined A B V) :=
  left.bind fun t => partners t.1

/-- The left outer join: a left row without a partner stands once, padded. -/
def specOuter (partners : (A → Option V) → Multiset (Joined A B V)) (left : Multiset (Row nullableA V)) :
    Multiset (Joined A B V) :=
  left.bind fun t => if (partners t.1).card = 0 then {(fun _ => none, t.1)} else partners t.1

end Spec

/-! ## Null keys -/

/-- Whether the marker column of a side is set; without a marker no row is. -/
def marked {C : Type*} (nullable : C → Bool) (side : JoinKey A B → C) (keys : List (JoinKey A B))
    (row : C → Option V) : Bool :=
  (computeNullKeyMarker nullable side keys).elim false fun marker => marker row

theorem marked_eq_any {C : Type*} (nullable : C → Bool) (side : JoinKey A B → C) (keys : List (JoinKey A B))
    (row : C → Option V) :
    marked nullable side keys row = (nullMatchCols nullable side keys).any fun c => (row c).isNone := by
  unfold marked computeNullKeyMarker
  cases h : nullMatchCols nullable side keys <;> simp

variable {keys : List (JoinKey A B)} {K : KeyType V H} {tuple : A → Option V}

/-- A row is not marked iff all its keys have values: a key that is flagged
and not nullable has one by its type. -/
theorem marked_eq_false_iff {C : Type*} {nullable : C → Bool} {side : JoinKey A B → C}
    (hk : ∀ k ∈ keys, k.bindingCompatible) (r : Row nullable V) :
    marked nullable side keys r.1 = false ↔ ∀ k ∈ keys, (r.1 (side k)).isSome := by
  rw [marked_eq_any, List.any_eq_false]
  simp only [nullMatchCols, List.mem_map, List.mem_filter, Bool.and_eq_true, Option.isNone_iff_eq_none]
  constructor
  · intro h k hmem
    by_cases hn : nullable (side k)
    · exact Option.isSome_iff_ne_none.2 (h _ ⟨k, ⟨hmem, hk k hmem, hn⟩, rfl⟩)
    · exact r.2 _ (by simpa using hn)
  · rintro h c ⟨k, ⟨hmem, -, -⟩, rfl⟩
    exact Option.isSome_iff_ne_none.1 (h k hmem)

section Fill

variable [DecidableEq B] {nullable : B → Bool} {keys : List (JoinKey A B)}

/-- A column not redirected yet is filled by the first pair that targets it. -/
theorem find?_fills (pairs : List (B × A)) {redirected : List B} {c : B} (hc : c ∉ redirected) :
    (fills redirected pairs).find? (fun p => p.1 = c) = pairs.find? (fun p => p.1 = c) := by
  induction pairs generalizing redirected with
  | nil => rfl
  | cons p pairs ih =>
    obtain ⟨target, source⟩ := p
    by_cases ht : target = c
    · subst ht
      simp [fills, hc]
    · by_cases hr : target ∈ redirected
      · simp [fills, hr, ht, ih hc]
      · have hc' : c ∉ target :: redirected := by simp [hc, Ne.symm ht]
        simp [fills, hr, ht, ih hc']

theorem find?_fillPairs {c : B} (hk : ∀ k ∈ keys, k.bindingCompatible) (hc : nullable c) :
    (fillPairs nullable keys).find? (fun p => p.1 = c) =
      (keys.find? fun k => k.build = c).map fun k => (k.build, k.probe) := by
  induction keys with
  | nil => rfl
  | cons k keys ih =>
    have ih := ih fun k' hk' => hk k' (List.mem_cons_of_mem _ hk')
    have hflag := hk k List.mem_cons_self
    unfold fillPairs at ih ⊢
    by_cases hb : k.build = c
    · simp [hflag, hb, hc]
    · by_cases hn : nullable k.build
      · simp [hflag, hn, hb, ih]
      · simp [hn, hb, ih]

/-- The fill-in is the merge: the columns it leaves out are not nullable. -/
theorem applyFillIn_eq_merge (hk : ∀ k ∈ keys, k.bindingCompatible) (r : Row nullable V) (tuple : A → Option V) :
    applyFillIn (fillPairs nullable keys) r.1 tuple = (merge keys r.1 tuple, tuple) := by
  unfold applyFillIn merge
  refine Prod.ext (funext fun c => ?_) rfl
  simp only [find?_fills _ List.not_mem_nil]
  cases hv : r.1 c with
  | some v => split <;> simp
  | none =>
    have hn : nullable c := by
      by_contra h
      have := r.2 c (by simpa using h)
      simp [hv] at this
    rw [find?_fillPairs hk hn]
    cases keys.find? fun k => k.build = c <;> simp

/-- A row whose keys all have values is its own merge. -/
theorem merge_eq_self {stored : B → Option V} (h : ∀ k ∈ keys, (stored k.build).isSome) (tuple : A → Option V) :
    merge keys stored tuple = stored := by
  funext c
  unfold merge
  cases hv : stored c with
  | some v => rfl
  | none =>
    cases hf : keys.find? fun k => k.build = c with
    | none => rfl
    | some k =>
      have hb : k.build = c := by simpa using List.find?_some hf
      have hs := h k (List.mem_of_find?_eq_some hf)
      rw [hb, hv] at hs
      cases hs

/-- With pairwise different build columns the test before the merge and the
test after it agree: a filled key holds the tuple's own value. -/
theorem compatible_merge {K : KeyType V H} (hd : (keys.map JoinKey.build).Nodup) (stored : B → Option V)
    (tuple : A → Option V) : Compatible K keys (merge keys stored tuple) tuple ↔ Compatible K keys stored tuple := by
  have find_key : ∀ k ∈ keys, keys.find? (fun k' => k'.build = k.build) = some k := by
    intro k hk
    cases hf : keys.find? fun k' => k'.build = k.build with
    | none => simpa using List.find?_eq_none.1 hf k hk
    | some k' =>
      have hb : k'.build = k.build := by simpa using List.find?_some hf
      rw [List.inj_on_of_nodup_map hd (List.mem_of_find?_eq_some hf) hk hb]
  refine forall₂_congr fun k hk => ?_
  unfold merge
  cases hv : stored k.build with
  | some v => rfl
  | none =>
    constructor
    · intro _ b hb
      cases hb
    · intro _ b hb p hp
      simp only [find_key k hk] at hb
      rw [Option.mem_unique hb hp]
      exact K.refl p

end Fill

/-! ## The lookup -/

theorem hashKeys_congr {stored : B → Option V}
    (h : ∀ k ∈ keys, ∃ b p, stored k.build = some b ∧ tuple k.probe = some p ∧ K.eq b p) (h₀ : Option H) :
    hashKeys K h₀ (keys.map fun k => stored k.build) = hashKeys K h₀ (keys.map fun k => tuple k.probe) := by
  induction keys generalizing h₀ with
  | nil => rfl
  | cons k keys ih =>
    obtain ⟨b, p, hb, hp, he⟩ := h k List.mem_cons_self
    simp only [List.map_cons, hashKeys, hb, hp, K.hash_eq _ _ _ he]
    exact ih (fun k' hk' => h k' (List.mem_cons_of_mem _ hk')) _

variable {rows : Multiset (B → Option V)}

section

variable [DecidableEq H] (T : HashTable H) (hs : ∀ stored ∈ rows, ∀ k ∈ keys, (stored k.build).isSome)
include hs

/-- Among rows without null keys, a tuple without null keys finds the
compatible ones: equal keys have equal hashes. -/
theorem lookup_eq_filter (ht : ∀ k ∈ keys, (tuple k.probe).isSome) :
    T.lookup K keys rows tuple = rows.filter fun stored => Compatible K keys stored tuple := by
  refine filter_congr fun stored hmem => ?_
  have values : ∀ k ∈ keys, ∃ b p, stored k.build = some b ∧ tuple k.probe = some p := by
    intro k hk
    obtain ⟨b, hb⟩ := Option.isSome_iff_exists.1 (hs stored hmem k hk)
    obtain ⟨p, hp⟩ := Option.isSome_iff_exists.1 (ht k hk)
    exact ⟨b, p, hb, hp⟩
  have heq : eqFn K keys stored tuple ↔ Compatible K keys stored tuple := by
    simp only [eqFn, List.all_eq_true]
    refine forall₂_congr fun k hk => ?_
    obtain ⟨b, p, hb, hp⟩ := values k hk
    simp [hb, hp, compareOperands]
  rw [heq]
  refine ⟨fun h => h.2.2, fun h => ?_⟩
  have equal : ∀ k ∈ keys, ∃ b p, stored k.build = some b ∧ tuple k.probe = some p ∧ K.eq b p := by
    intro k hk
    obtain ⟨b, p, hb, hp⟩ := values k hk
    exact ⟨b, p, hb, hp, h k hk b hb p hp⟩
  simp [hashKeys_congr equal none, h]

/-- A tuple with a null key finds nothing among rows without null keys. -/
theorem lookup_eq_zero {k : JoinKey A B} (hk : k ∈ keys)
    (ht : tuple k.probe = none) : T.lookup K keys rows tuple = 0 := by
  refine filter_eq_nil.2 fun stored hmem h => ?_
  obtain ⟨b, hb⟩ := Option.isSome_iff_exists.1 (hs stored hmem k hk)
  have := List.all_eq_true.1 h.2.2 k hk
  simp [hb, ht, compareOperands] at this

/-- Over the rows without null keys, the lookup and the third branch together
give the compatible ones: the third branch runs if the tuple has a null key,
and the lookup is then empty. -/
theorem probe_filter {nullableA : A → Bool} (K : KeyType V H)
    (hk : ∀ k ∈ keys, k.bindingCompatible) (t : Row nullableA V) :
    ((T.lookup K keys rows t.1).map (fun stored => (stored, t.1)) +
      if marked nullableA JoinKey.probe keys t.1 then rows.map (fun stored => (stored, t.1)) else 0).filter
        (fun j => Compatible K keys j.1 j.2) =
      (rows.map fun stored => (stored, t.1)).filter fun j => Compatible K keys j.1 j.2 := by
  by_cases ht : marked nullableA JoinKey.probe keys t.1 = false
  · rw [lookup_eq_filter T hs ((marked_eq_false_iff hk t).1 ht)]
    simp [ht, filter_map]
  · have hnull := (not_congr (marked_eq_false_iff hk t)).1 ht
    push Not at hnull
    obtain ⟨k, hmem, hnone⟩ := hnull
    rw [lookup_eq_zero T hs hmem (by simpa using hnone)]
    simp [ht]

end

/-! ## The join predicates -/

section
variable (hk : ∀ k ∈ keys, k.bindingCompatible = true)
include hk

theorem innerPredicate_iff (j : Joined A B V) : innerPredicate K keys j ↔ Compatible K keys j.1 j.2 := by
  rw [innerPredicate, List.filter_eq_self.2 hk, List.all_eq_true]
  refine forall₂_congr fun k _ => ?_
  cases j.1 k.build <;> cases j.2 k.probe <;> simp [bindingsCompatible]

/-- The two orders of the operands make no difference. -/
theorem outerPredicate_iff (j : Joined A B V) : outerPredicate K keys j ↔ Compatible K keys j.1 j.2 := by
  rw [outerPredicate, List.filter_eq_self.2 hk, List.all_eq_true]
  refine forall₂_congr fun k _ => ?_
  cases j.1 k.build with
  | none => cases j.2 k.probe <;> simp [bindingsCompatible]
  | some b =>
    cases j.2 k.probe with
    | none => simp [bindingsCompatible]
    | some p =>
      simp only [Option.mem_def, Option.some.injEq, forall_eq']
      exact ⟨K.symm p b, K.symm b p⟩

/-- What `InnerJoinNLLowering` keeps of pairs with the given partners. -/
theorem innerJoin_eq (t : A → Option V) (pairs : Multiset (Joined A B V)) :
    innerJoin K keys t pairs = pairs.filter fun j => Compatible K keys j.1 j.2 :=
  filter_congr fun j _ => innerPredicate_iff hk j

theorem outerJoin_eq (t : A → Option V) (pairs : Multiset (Joined A B V)) :
    outerJoin K keys t pairs = let kept := pairs.filter fun j => Compatible K keys j.1 j.2
      if kept.card = 0 then {(fun _ => none, t)} else kept := by
  have hkept : (pairs.filter fun j => outerPredicate K keys j) =
      pairs.filter fun j => Compatible K keys j.1 j.2 := filter_congr fun j _ => outerPredicate_iff hk j
  simp only [outerJoin, hkept]
  split
  · next h => simp [card_eq_zero.1 h]
  · simp

end

/-! ## The translations meet the specification -/

section Agreement

variable [DecidableEq B] {nullableA : A → Bool} {nullableB : B → Bool} {keys : List (JoinKey A B)}

/-- What the hash join hands to `fn` for one tuple, with the marker of a side
that has none read as false. -/
def hashPairs [DecidableEq H] (T : HashTable H) (K : KeyType V H) (nullableA : A → Bool)
    (keys : List (JoinKey A B)) (right : Multiset (Row nullableB V)) (tuple : A → Option V) : Multiset (Joined A B V) :=
  let rows := right.map Row.val
  let rightNonNull := rows.filter fun r => marked nullableB JoinKey.build keys r = false
  (T.lookup K keys rightNonNull tuple).map (fun stored => (stored, tuple)) +
    (rows.filter fun r => marked nullableB JoinKey.build keys r = true).map
      (fun stored => applyFillIn (fillPairs nullableB keys) stored tuple) +
    if marked nullableA JoinKey.probe keys tuple then rightNonNull.map fun stored => (stored, tuple) else 0

theorem translateHJ_eq_bind [DecidableEq H] {Out : Type*} (T : HashTable H) (K : KeyType V H)
    (keys : List (JoinKey A B)) (left : Multiset (Row nullableA V)) (right : Multiset (Row nullableB V))
    (fn : (A → Option V) → Multiset (Joined A B V) → Multiset Out) :
    translateHJBindingCompatible T K keys left right fn =
      left.bind fun t => fn t.1 (hashPairs T K nullableA keys right t.1) := by
  unfold translateHJBindingCompatible hashPairs marked
  cases computeNullKeyMarker nullableB JoinKey.build keys with
  | none => cases computeNullKeyMarker nullableA JoinKey.probe keys <;> simp
  | some _ => cases computeNullKeyMarker nullableA JoinKey.probe keys <;> rfl

/-- The pairs of the nested loop are the merged pairs, with or without fills. -/
theorem translateNLJ_eq_bind {Out : Type*} (hk : ∀ k ∈ keys, k.bindingCompatible)
    (left : Multiset (Row nullableA V)) (right : Multiset (Row nullableB V))
    (fn : (A → Option V) → Multiset (Joined A B V) → Multiset Out) : translateNLJBindingCompatible keys left right fn =
      left.bind fun t => fn t.1 (right.map fun r => (merge keys r.1 t.1, t.1)) := by
  refine bind_congr fun t _ => ?_
  simp only [map_map, Function.comp_def]
  split
  · next h =>
    refine congrArg _ (map_congr rfl fun r _ => ?_)
    rw [← applyFillIn_eq_merge hk]
    simp [applyFillIn, h]
  · simp only [applyFillIn_eq_merge hk]

/-- Every pair comes from one branch: a build row with a null key from the
buffer, filled in, and one without from the lookup or the third branch. -/
theorem hashPairs_filter [DecidableEq H] (T : HashTable H) (K : KeyType V H)
    (hk : ∀ k ∈ keys, k.bindingCompatible) (right : Multiset (Row nullableB V)) (t : Row nullableA V) :
    (hashPairs T K nullableA keys right t.1).filter (fun j => Compatible K keys j.1 j.2) =
      partnersMerged K keys right t.1 := by
  let nonNull := right.filter fun r => marked nullableB JoinKey.build keys r.1 = false
  let nullKeys := right.filter fun r => marked nullableB JoinKey.build keys r.1
  have hvalues : ∀ r ∈ nonNull, ∀ k ∈ keys, (r.1 k.build).isSome := fun r hr =>
    (marked_eq_false_iff hk r).1 (mem_filter.1 hr).2
  have hrows : ∀ stored ∈ nonNull.map Row.val, ∀ k ∈ keys, (stored k.build).isSome := by
    intro stored hmem
    obtain ⟨r, hr, rfl⟩ := mem_map.1 hmem
    exact hvalues r hr
  have hmerge : nonNull.map (fun r => (merge keys r.1 t.1, t.1)) =
      (nonNull.map Row.val).map (fun stored => (stored, t.1)) := by
    rw [map_map]
    refine map_congr rfl fun r hr => ?_
    rw [merge_eq_self (hvalues r hr)]
    rfl
  have hsplit : nonNull + nullKeys = right := by
    simpa using
      filter_add_not (fun r => marked nullableB JoinKey.build keys r.1 = false) right
  have hpairs : hashPairs T K nullableA keys right t.1 =
      ((T.lookup K keys (nonNull.map Row.val) t.1).map (fun stored => (stored, t.1)) +
        if marked nullableA JoinKey.probe keys t.1 then (nonNull.map Row.val).map (fun stored => (stored, t.1))
        else 0) + nullKeys.map fun r => (merge keys r.1 t.1, t.1) := by
    simp only [hashPairs, filter_map, map_map, Function.comp_def, applyFillIn_eq_merge hk]
    exact add_right_comm _ _ _
  rw [hpairs, filter_add, probe_filter T hrows K hk, ← hmerge, ← filter_add, ← map_add, hsplit]
  rfl

theorem partnersMerged_eq_partners {K : KeyType V H} (hd : (keys.map JoinKey.build).Nodup)
    (right : Multiset (Row nullableB V)) : partnersMerged K keys right = partners K keys right := by
  funext t
  simp [partnersMerged, partners, filter_map, compatible_merge hd]

/-- **The hash join, the nested loop and the specification agree.** Both
translations give the pairs that are compatible after the merge; where the
build columns of the keys are pairwise different, these are the merged
compatible pairs. -/
theorem translations_agree [DecidableEq H] (T : HashTable H) (K : KeyType V H) (keys : List (JoinKey A B))
    (hk : ∀ k ∈ keys, k.bindingCompatible = true)
    (left : Multiset (Row nullableA V)) (right : Multiset (Row nullableB V)) :
    (translateHJBindingCompatible T K keys left right (innerJoin K keys) =
        specInner (partnersMerged K keys right) left ∧
      translateNLJBindingCompatible keys left right (innerJoin K keys) = specInner (partnersMerged K keys right) left) ∧
    (translateHJBindingCompatible T K keys left right (outerJoin K keys) =
        specOuter (partnersMerged K keys right) left ∧
      translateNLJBindingCompatible keys left right (outerJoin K keys) = specOuter (partnersMerged K keys right) left) ∧
    ((keys.map JoinKey.build).Nodup →
      specInner (partnersMerged K keys right) left = specInner (partners K keys right) left ∧
      specOuter (partnersMerged K keys right) left = specOuter (partners K keys right) left) := by
  refine ⟨⟨?_, ?_⟩, ⟨?_, ?_⟩, fun hd => ?_⟩
  · simp only [translateHJ_eq_bind, innerJoin_eq hk, hashPairs_filter T K hk, specInner]
  · simp only [translateNLJ_eq_bind hk, innerJoin_eq hk, specInner, partnersMerged]
  · simp only [translateHJ_eq_bind, outerJoin_eq hk, hashPairs_filter T K hk, specOuter]
  · simp only [translateNLJ_eq_bind hk, outerJoin_eq hk]
    rfl
  · rw [partnersMerged_eq_partners hd]
    exact ⟨rfl, rfl⟩

/-- Equal numbers, hashed to the same value whatever they are. -/
def natKeys : KeyType Nat Unit where
  eq v w := v == w
  hashInto _ _ := ()
  refl := by simp
  symm := by simp +contextual
  trans := by simp +contextual
  hash_eq _ _ _ _ := rfl

/-- Two keys on different columns, nulls on both sides: the first tuple joins
the row that lacks its first key, the second joins both rows, the third none. -/
theorem translations_agree_twoKeys :
    let keys : List (JoinKey Bool Bool) := [⟨false, false, false, true⟩, ⟨true, true, false, true⟩]
    let tuple (p q : Option Nat) : Row (fun _ : Bool => true) Nat := ⟨fun c => if c then q else p, by simp⟩
    let left : Multiset (Row (fun _ : Bool => true) Nat) :=
      {tuple (some 1) (some 2), tuple none (some 2), tuple (some 5) (some 6)}
    let right : Multiset (Row (fun _ : Bool => true) Nat) := {tuple none (some 2), tuple (some 3) none}
    (translateHJBindingCompatible ⟨fun _ => 0, true⟩ natKeys keys left right (innerJoin natKeys keys)).card = 3 ∧
      (translateHJBindingCompatible ⟨fun _ => 0, true⟩ natKeys keys left right (outerJoin natKeys keys)).card = 4 := by
  intro keys tuple left right
  obtain ⟨⟨hinner, -⟩, ⟨houter, -⟩, -⟩ := translations_agree ⟨fun _ => 0, true⟩ natKeys keys (by decide) left right
  rw [hinner, houter]
  decide

/-- Two keys on one build column that is null: it takes the first key's value
and fails the second key's test, though every key pairs a value with null. -/
theorem shared_build_column :
    let keys : List (JoinKey Bool Unit) := [⟨false, (), false, true⟩, ⟨true, (), false, true⟩]
    let left : Multiset (Row (fun _ : Bool => true) Nat) := {⟨fun c => if c then some 2 else some 1, by simp⟩}
    let right : Multiset (Row (fun _ : Unit => true) Nat) := {⟨fun _ => none, by simp⟩}
    (translateHJBindingCompatible ⟨fun _ => 0, true⟩ natKeys keys left right (innerJoin natKeys keys)).card = 0 ∧
      (translateNLJBindingCompatible keys left right (innerJoin natKeys keys)).card = 0 ∧
      (specInner (partners natKeys keys right) left).card = 1 := by
  decide

end Agreement

end GengoDB.BindingJoin
