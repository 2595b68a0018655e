/-
When equal variants have equal hashes. The comparison looks at both tags and
goes to a value comparison wherever XSD has one; the hash looks at one tag
and takes a double, a string or a node id. What it takes is the same for equal
variants exactly on the pairs of `HashConsistent`. Outside of them an integer
kept as text and the same number as a long are equal and hashed as a string and
as a double, the two zeros are hashed by their signs, and an IRI of the query is
read as a node.
-/
import GengoDB.VariantCompare

namespace GengoDB

open XsdType

variable {Lit : Type*} (R : Rdf4cpp Lit) (M : Memory) {a b v : Variant}

/-- rdf4cpp on numbers: equal literals of integer types are equal integers, no
literal equals a NaN, an integer or boolean has the double of its value and
widening a float is exact. -/
structure Rdf4cpp.CastsValues (double : ℤ → BitVec 64) : Prop where
  integer_eq : ∀ n ∈ XsdType.fixedNumericTags, ∀ m ∈ XsdType.fixedNumericTags, n.isFloat = false →
    m.isFloat = false → ∀ x y : BitVec 64,
    R.compare .eq (R.fromValue n.type x) (R.fromValue m.type y) = some true → n.intValue x = m.intValue y
  nan_ne : ∀ n ∈ XsdType.fixedNumericTags, n.isFloat = true → ∀ (x : BitVec 64) (l : Lit), n.floatValue x = .nan →
    R.compare .eq (R.fromValue n.type x) l ≠ some true ∧ R.compare .eq l (R.fromValue n.type x) ≠ some true
  integer_cast : ∀ n ∈ XsdType.fixedNumericTags, n.isFloat = false → ∀ x : BitVec 64,
    R.castToDouble (R.fromValue n.type x) = some (double (n.intValue x))
  boolean_cast : ∀ x : BitVec 64, x.toNat ≤ 1 → R.castToDouble (R.fromValue .boolean x) = some (double x.toNat)
  float_cast : ∀ x : BitVec 64, Binary.binary32.decode (x.setWidth 32).toNat ≠ .nan →
    R.castToDouble (R.fromValue .float x) = some (BitVec.ofNat 64 (Binary.widen (x.setWidth 32).toNat))
  double_cast : ∀ x : BitVec 64, Binary.binary64.decode x.toNat ≠ .nan →
    R.castToDouble (R.fromValue .double x) = some x

/-! ## Pairs with one hash -/

/-- The double of a number or a boolean, and the word of a date. -/
def doubleWord (double : ℤ → BitVec 64) (v : Variant) : BitVec 64 :=
  match v.tag with
  | .boolean => double (v.ref.setWidth 8).toNat
  | .float => BitVec.ofNat 64 (Binary.widen (v.ref.setWidth 32).toNat)
  | .double | .date | .dateTime => v.ref
  | t => ((fixedNumericTags.find? fun n => n.type = t).map fun n => double (n.intValue v.ref)).getD 0

/-- The tags whose variants have a text: of the payload, or of the node's literal. -/
def XsdType.hasText (t : XsdType) : Bool :=
  !t.isNumericFamily && !(t == .node || t == .unspecified || t == .anyIRI || t == .edge || t == .anyLiteralScalar)

def textOf (v : Variant) : Option Bytes :=
  if v.tag.isByteString then some (M.varLen v.ref) else toStringBlobLiteral R M v.ref

def XsdType.isFixedInteger (t : XsdType) : Bool := fixedNumericTags.any fun n => n.type = t && !n.isFloat

/-- Pairs of variants on which the hash follows the comparison. -/
inductive HashConsistent (double : ℤ → BitVec 64) (a b : Variant) : Prop where
  /-- Nodes, strings, booleans, and literals of other datatypes on a node. -/
  | alike : a.tag = b.tag → a.tag ∈ [.node, .string, .boolean, .anyLiteralNode] → HashConsistent double a b
  /-- Fixed-width integers of any two types. -/
  | integers : a.tag.isFixedInteger → b.tag.isFixedInteger → HashConsistent double a b
  /-- Numbers, booleans or dates of the same double. -/
  | numbers : a.tag.isNumericFamily → b.tag.isNumericFamily → doubleWord double a = doubleWord double b →
      HashConsistent double a b
  /-- The same text. -/
  | texts : a.tag.hasText → b.tag.hasText → textOf R M a = textOf R M b → HashConsistent double a b

/-! ## What is hashed -/

/-- What a hash is made of. -/
inductive HashKey where
  | word (x : BitVec 64)
  | text (s : Option Bytes)
  | nothing
  deriving DecidableEq

def HashKey.hash (F : HashFunctions) (total : Option (BitVec 64)) : HashKey → BitVec 64
  | word x => combineHashes (F.integer x) total
  | text s => combineHashes (F.varLen s) total
  | nothing => total.getD 0

def hashKey (v : Variant) : Option HashKey :=
  if v.tag.isNumericFamily then some (.word (hashNumeric R v.ref v.tag))
  else if v.tag.hasText then some (.text (textOf R M v))
  else if v.tag = .node then some (.word (BitVec.ofInt 64 (M.node v.ref).uid))
  else if v.tag = .unspecified then some .nothing
  else none

theorem hashImpl_eq (F : HashFunctions) (total : Option (BitVec 64)) (v : Variant) :
    hashImpl R M F total v = (hashKey R M v).map (HashKey.hash F total) := by
  rw [hashImpl, hashKey, textOf]
  generalize hashNumeric R v.ref v.tag = word
  generalize toStringBlobLiteral R M v.ref = text
  cases v.tag <;> rfl

/-- Hashes are equal for all hash functions exactly if they are made of the same. -/
theorem same_hash_iff {k k' : Option HashKey} :
    (∀ F total, ∃ x, k.map (HashKey.hash F total) = some x ∧ k'.map (HashKey.hash F total) = some x) ↔
      ∃ key, k = some key ∧ k' = some key := by
  constructor
  · intro h
    obtain ⟨x, hx, hx'⟩ := h ⟨id, fun _ => 0⟩ none
    obtain ⟨key, rfl, -⟩ := Option.map_eq_some_iff.1 hx
    obtain ⟨key', rfl, -⟩ := Option.map_eq_some_iff.1 hx'
    have heq (F : HashFunctions) : key.hash F none = key'.hash F none := by
      obtain ⟨y, hy, hy'⟩ := h F none
      exact (Option.some.inj hy).trans (Option.some.inj hy').symm
    have hne : (0 : BitVec 64) ≠ 1 := by decide
    refine ⟨key, rfl, congrArg some ?_⟩
    -- Words are told apart by the identity, texts by one of them, the rest by constants.
    cases key with
    | word x =>
      cases key' with
      | word x' => exact congrArg _ (heq ⟨id, fun _ => 0⟩).symm
      | text s => exact absurd (heq ⟨fun _ => 0, fun _ => 1⟩) hne
      | nothing => exact absurd (heq ⟨fun _ => 1, fun _ => 1⟩) hne.symm
    | text s =>
      cases key' with
      | word x => exact absurd (heq ⟨fun _ => 1, fun _ => 0⟩) hne
      | text s' =>
        have htext := heq ⟨fun _ => 0, fun t => if t = s then 0 else 1⟩
        simp only [HashKey.hash, combineHashes, if_true] at htext
        by_contra hs
        rw [if_neg fun heq => hs (congrArg _ heq)] at htext
        exact hne htext
      | nothing => exact absurd (heq ⟨fun _ => 1, fun _ => 1⟩) hne.symm
    | nothing =>
      cases key' with
      | word x => exact absurd (heq ⟨fun _ => 1, fun _ => 1⟩) hne
      | text s => exact absurd (heq ⟨fun _ => 1, fun _ => 1⟩) hne
      | nothing => rfl
  · rintro ⟨key, rfl, rfl⟩ F total
    exact ⟨_, rfl, rfl⟩

/-! ## What equality says, class by class -/

theorem holds_eq_iff (o : Ordering) : CmpPredicate.eq.holds o ↔ o = .eq := by
  cases o <;> decide

theorem compareBytes_eq_iff (l r : Bytes) : compareBytes l r = .eq ↔ l = r := by
  unfold compareBytes compareOfLessAndEq
  by_cases h : l < r
  · simp [h, h.ne]
  · by_cases h' : l = r <;> simp [h]

section Fixed

variable {n m : XsdType.FixedNumericTag} (hn : n ∈ XsdType.fixedNumericTags) (hm : m ∈ XsdType.fixedNumericTags)

include hn in
theorem hashNumeric_fixed (x : BitVec 64) :
    hashNumeric R x n.type = (R.castToDouble (R.fromValue n.type (lowBytes n.type.classifyStorage.2 x))).getD 0 := by
  obtain ⟨-, hfrom, -⟩ := fixedNumericTags_spec n hn
  have hdate : ¬ (n.type = .date ∨ n.type = .dateTime) := by
    revert n
    decide
  simp [hashNumeric, hfrom, hdate, getLiteralFromNumeric_fixed R hn]

include hn hm in
/-- One tag goes the fast path, two go to `compareNumericCross`. -/
theorem cmp_fixed {a b : Variant} (ha : n.type = a.tag) (hb : m.type = b.tag) (p : CmpPredicate) :
    (n = m ∧ cmp R M p a b = some (n.cmp p a.ref b.ref)) ∨
      cmp R M p a b = R.compare p (R.fromValue n.type (lowBytes n.type.classifyStorage.2 a.ref))
        (R.fromValue m.type (lowBytes m.type.classifyStorage.2 b.ref)) := by
  obtain ⟨-, -, -, -, hbool, hfind⟩ := fixedNumericTags_spec n hn
  obtain ⟨-, -, -, -, -, hfind'⟩ := fixedNumericTags_spec m hm
  unfold cmp
  by_cases htag : a.tag = b.tag
  · left
    have hnm : n = m := by
      rw [ha, htag, ← hb, hfind'] at hfind
      exact (Option.some.inj hfind).symm
    refine ⟨hnm, ?_⟩
    rw [if_pos htag, ← ha]
    simp [fastCase, hbool, hfind]
  · right
    have hfa : a.tag.isFixedNumeric := ha ▸ isFixedNumeric_of_mem hn
    have hfb : b.tag.isFixedNumeric := hb ▸ isFixedNumeric_of_mem hm
    have hd : ¬ XsdType.DecimalVsFixed a.tag b.tag := by
      obtain ⟨-, -, -, -, -, -, hda⟩ := a.tag.isFixedNumeric_spec hfa
      obtain ⟨-, -, -, -, -, -, hdb⟩ := b.tag.isFixedNumeric_spec hfb
      simp [XsdType.DecimalVsFixed, hda, hdb]
    rw [if_neg htag, crossTag_of_not_decimal R M (by simp [isNumeric, hfa]) (by simp [isNumeric, hfb])
      htag hd, reconstructLiteral_fixed R M hfa, reconstructLiteral_fixed R M hfb, ← ha, ← hb,
      getLiteralFromNumeric_fixed R hn, getLiteralFromNumeric_fixed R hm]
    rfl

end Fixed

theorem compareBlobLiteral_unspecified (p : CmpPredicate) (x y : BitVec 64) (t : XsdType) :
    compareBlobLiteral R M p x y .unspecified t = none ∧ compareBlobLiteral R M p x y t .unspecified = none := by
  refine ⟨rfl, ?_⟩
  unfold compareBlobLiteral
  cases reconstructLiteral R M x t <;> rfl

/-- Nothing equals what is not specified. -/
theorem cmp_unspecified (p : CmpPredicate) (h : a.tag = .unspecified ∨ b.tag = .unspecified) : cmp R M p a b = none := by
  unfold cmp
  split
  · next htag =>
    have ha : a.tag = .unspecified := h.elim id htag.trans
    rw [ha]
    rfl
  · rcases h with h | h
    · simp [crossTag, h, isResource, isLiteral, isNumericFamily, compareBlobLiteral_unspecified]
    · simp [crossTag, h, isResource, isLiteral, isNumericFamily, compareBlobLiteral_unspecified]

/-- Among the others a node only equals an IRI. -/
theorem crossTag_node (h : a.tag = .node ∧ b.tag ≠ .anyIRI ∨ b.tag = .node ∧ a.tag ≠ .anyIRI) :
    crossTag R M .eq a b ≠ some true := by
  have hinteger : isLiteral .integer := rfl
  rcases h with ⟨h, hiri⟩ | ⟨h, hiri⟩
  · by_cases hlit : isLiteral b.tag
    · simp [crossTag, h, isResource, hlit]
    · have hint : b.tag ≠ .integer := fun hint => hlit (hint ▸ hinteger)
      simp [crossTag, h, isResource, isLiteral, isNumericFamily, isScratchPayload, hint, hiri]
  · by_cases hlit : isLiteral a.tag
    · simp [crossTag, h, isResource, hlit]
    · have hint : a.tag ≠ .integer := fun hint => hlit (hint ▸ hinteger)
      simp [crossTag, h, isResource, isLiteral, isNumericFamily, isScratchPayload, hint, hiri]

section Numbers

variable {R M} {double : ℤ → BitVec 64} (H : R.CastsValues double)
include H

omit H in
theorem crossTag_numericFamily (ha : a.tag.isNumericFamily) (hb : b.tag.isNumericFamily) (p : CmpPredicate) :
    crossTag R M p a b = compareNumericCross R p a.ref b.ref a.tag b.tag := by
  have hresource : ∀ t : XsdType, t.isNumericFamily → isResource t = false := by
    intro t
    cases t <;> decide
  simp [crossTag, hresource _ ha, hresource _ hb, ha, hb]

omit H in
/-- The fast path of floats is false on a NaN. -/
theorem cmp_ne_of_nan {n : FixedNumericTag} (hf : n.isFloat) {x y : BitVec 64}
    (h : n.floatValue x = .nan ∨ n.floatValue y = .nan) : n.cmp .eq x y = false := by
  have hcompare : (n.floatValue x).compare (n.floatValue y) = none := by
    rcases h with h | h
    · rw [h]
      rfl
    · rw [h, Binary.Value.compare_nan]
  simp only [FixedNumericTag.floatValue] at hcompare
  simp only [FixedNumericTag.cmp, hf, cmpF, hcompare, if_true]

/-- No NaN is equal to anything. -/
theorem ne_nan_of_cmp (ha : a.tag.isNumericFamily) (hb : b.tag.isNumericFamily) (h : cmp R M .eq a b = some true)
    {n : FixedNumericTag} (hn : n ∈ fixedNumericTags) (hf : n.isFloat) :
    (n.type = a.tag → n.floatValue a.ref ≠ .nan) ∧ (n.type = b.tag → n.floatValue b.ref ≠ .nan) := by
  obtain ⟨-, -, -, -, hbool, hfind⟩ := fixedNumericTags_spec n hn
  by_cases htag : a.tag = b.tag
  · have hfast (hna : n.type = a.tag) (hnan : n.floatValue a.ref = .nan ∨ n.floatValue b.ref = .nan) : False := by
      rw [cmp, if_pos htag, ← hna] at h
      simp [fastCase, hbool, hfind, cmp_ne_of_nan hf hnan] at h
    exact ⟨fun hna hnan => hfast hna (.inl hnan), fun hnb hnan => hfast (hnb.trans htag.symm) (.inr hnan)⟩
  · rw [cmp, if_neg htag, crossTag_numericFamily ha hb, compareNumericCross] at h
    refine ⟨fun hna hnan => ?_, fun hnb hnan => ?_⟩
    · rw [← floatValue_lowBytes hn] at hnan
      rw [← hna, getLiteralFromNumeric_fixed R hn] at h
      cases hr : getLiteralFromNumeric R b.ref b.tag with
      | none =>
        rw [hr] at h
        cases h
      | some r =>
        rw [hr] at h
        exact (H.nan_ne n hn hf _ r hnan).1 h
    · rw [← floatValue_lowBytes hn] at hnan
      rw [← hnb, getLiteralFromNumeric_fixed R hn] at h
      cases hl : getLiteralFromNumeric R a.ref a.tag with
      | none =>
        rw [hl] at h
        cases h
      | some l =>
        rw [hl] at h
        exact (H.nan_ne n hn hf _ l hnan).2 h

omit H in
theorem doubleWord_integer {n : FixedNumericTag} (hn : n ∈ fixedNumericTags) (hf : n.isFloat = false) (hv : n.type = v.tag) :
    doubleWord double v = double (n.intValue v.ref) := by
  rw [doubleWord, ← hv]
  simp only [fixedNumericTags, List.mem_cons, List.not_mem_nil, or_false] at hn
  rcases hn with rfl | rfl | rfl | rfl | rfl | rfl | rfl | rfl | rfl | rfl
  case inr.inr.inr.inr.inr.inr.inr.inr.inl => cases hf
  case inr.inr.inr.inr.inr.inr.inr.inr.inr => cases hf
  all_goals rfl

/-- What the runtime makes of a number. -/
theorem hashNumeric_eq (hv : v.tag.isNumericFamily)
    (hnan : ∀ n ∈ fixedNumericTags, n.isFloat → n.type = v.tag → n.floatValue v.ref ≠ .nan) :
    hashNumeric R v.ref v.tag = doubleWord double v := by
  have hcases : v.tag = .date ∨ v.tag = .dateTime ∨ v.tag = .boolean ∨ ∃ n ∈ fixedNumericTags, n.type = v.tag := by
    revert hv
    cases v.tag <;> decide
  rcases hcases with htag | htag | htag | ⟨n, hn, htag⟩
  · rw [doubleWord, htag]
    rfl
  · rw [doubleWord, htag]
    rfl
  · have hbyte := v.boolByte htag
    have hlow : (lowBytes 1 v.ref).toNat = (v.ref.setWidth 8).toNat := by
      rw [lowBytes, BitVec.toNat_setWidth, Nat.mod_eq_of_lt (by omega)]
    have hcast := H.boolean_cast (lowBytes 1 v.ref) (by omega)
    rw [doubleWord, htag, ← hlow]
    simp [hashNumeric, fromInt32, getLiteralFromNumeric, isNumericFamily, classifyStorage, hcast]
  · rw [← htag, hashNumeric_fixed R hn]
    by_cases hf : n.isFloat
    · have hvalue := hnan n hn hf htag
      rw [← floatValue_lowBytes hn] at hvalue
      have hkind : n = ⟨.float, 32, true, false⟩ ∨ n = ⟨.double, 64, true, false⟩ := by
        clear hvalue htag
        revert n
        decide
      rcases hkind with rfl | rfl
      · have hcast := H.float_cast (lowBytes 4 v.ref) hvalue
        rw [doubleWord, ← htag]
        have hlow : (lowBytes 4 v.ref).setWidth 32 = v.ref.setWidth 32 := by
          rw [lowBytes, BitVec.setWidth_setWidth_of_le _ (by decide), BitVec.setWidth_eq]
        show (R.castToDouble (R.fromValue .float (lowBytes 4 v.ref))).getD 0 = _
        rw [hcast, hlow]
        rfl
      · have hlow : lowBytes 8 v.ref = v.ref := by rw [lowBytes, BitVec.setWidth_eq, BitVec.setWidth_eq]
        have hcast := H.double_cast (lowBytes 8 v.ref) hvalue
        rw [doubleWord, ← htag]
        show (R.castToDouble (R.fromValue .double (lowBytes 8 v.ref))).getD 0 = _
        rw [hcast, hlow]
        rfl
    · rw [H.integer_cast n hn (by simpa using hf), intValue_lowBytes hn, doubleWord_integer hn (by simpa using hf) htag]
      rfl

theorem intValue_eq_of_cmp {n m : FixedNumericTag} (hn : n ∈ fixedNumericTags) (hm : m ∈ fixedNumericTags)
    (ha : n.type = a.tag) (hb : m.type = b.tag) (h : cmp R M .eq a b = some true) (hfn : n.isFloat = false)
    (hfm : m.isFloat = false) : n.intValue a.ref = m.intValue b.ref := by
  rcases cmp_fixed R M hn hm ha hb .eq with ⟨rfl, hc⟩ | hc
  · rw [hc, Option.some.injEq, XsdType.FixedNumericTag.cmp_eq_intValue hfn, holds_eq_iff] at h
    exact Int.compare_eq_eq.1 h
  · have := H.integer_eq n hn m hm hfn hfm _ _ (hc.symm.trans h)
    rwa [intValue_lowBytes hn, intValue_lowBytes hm] at this

/-- Numbers that are equal are hashed by their doubles. -/
theorem hashKey_numbers (ha : a.tag.isNumericFamily) (hb : b.tag.isNumericFamily) (h : cmp R M .eq a b = some true) :
    hashKey R M a = some (.word (doubleWord double a)) ∧ hashKey R M b = some (.word (doubleWord double b)) := by
  constructor
  · rw [hashKey, if_pos ha, hashNumeric_eq H ha fun n hn hf => (ne_nan_of_cmp H ha hb h hn hf).1]
  · rw [hashKey, if_pos hb, hashNumeric_eq H hb fun n hn hf => (ne_nan_of_cmp H ha hb h hn hf).2]

theorem doubleWord_eq_of_integers (ha : a.tag.isFixedInteger) (hb : b.tag.isFixedInteger)
    (h : cmp R M .eq a b = some true) : doubleWord double a = doubleWord double b := by
  obtain ⟨n, hn, hna⟩ := List.any_eq_true.1 ha
  obtain ⟨m, hm, hmb⟩ := List.any_eq_true.1 hb
  simp only [Bool.and_eq_true, decide_eq_true_eq, Bool.not_eq_true'] at hna hmb
  rw [doubleWord_integer hn hna.2 hna.1, doubleWord_integer hm hmb.2 hmb.1,
    intValue_eq_of_cmp H hn hm hna.1 hmb.1 h hna.2 hmb.2]

end Numbers

/-! ## Tags that compare what they hash -/

section Alike

variable {R M} (h : cmp R M .eq a b = some true)
include h

theorem hashKey_node (ha : a.tag = .node) (hb : b.tag = .node) : hashKey R M a = hashKey R M b := by
  have huid : (M.node a.ref).uid = (M.node b.ref).uid := by
    simpa [cmp, ha, hb, fastCase, fixedNumericTags, sameTagSlow, isNumericFamily,
      compareNodeRefRef, holds_eq_iff] using h
  simp [hashKey, ha, hb, isNumericFamily, hasText, huid]

theorem textOf_string (ha : a.tag = .string) (hb : b.tag = .string) : textOf R M a = textOf R M b := by
  have htext : M.varLen a.ref = M.varLen b.ref := by
    simpa [cmp, ha, hb, fastCase, fixedNumericTags, sameTagSlow, isNumericFamily, applyStringCmp,
      holds_eq_iff, compareBytes_eq_iff] using h
  simp [textOf, ha, hb, isByteString, htext]

/-- Equal booleans agree in their lowest bit, and so in their byte. -/
theorem doubleWord_boolean (double : ℤ → BitVec 64) (ha : a.tag = .boolean) (hb : b.tag = .boolean) :
    doubleWord double a = doubleWord double b := by
  have hbit : a.ref.setWidth 1 = b.ref.setWidth 1 := by
    simpa [cmp, ha, hb, fastCase, cmpISigned] using h
  have hbyte : (a.ref.setWidth 8).toNat = (b.ref.setWidth 8).toNat := by
    have hxa := a.boolByte ha
    have hxb := b.boolByte hb
    have := congrArg BitVec.toNat hbit
    simp only [BitVec.toNat_setWidth] at *
    omega
  simp only [doubleWord, ha, hb, hbyte]

/-- Literals of other datatypes are equal as terms, with their lexical forms. -/
theorem textOf_anyLiteralNode (ha : a.tag = .anyLiteralNode) (hb : b.tag = .anyLiteralNode) :
    textOf R M a = textOf R M b := by
  have hslow : compareBlobLiteral R M .eq a.ref b.ref .anyLiteralNode .anyLiteralNode = some true := by
    simpa [cmp, ha, hb, fastCase, fixedNumericTags, sameTagSlow, isNumericFamily] using h
  have hlit : ∀ x, reconstructLiteral R M x .anyLiteralNode = reconstructBlobLiteral R M x := fun _ => rfl
  have hlex : toStringBlobLiteral R M a.ref = toStringBlobLiteral R M b.ref := by
    unfold compareBlobLiteral at hslow
    rw [hlit, hlit] at hslow
    unfold toStringBlobLiteral
    cases hl : reconstructBlobLiteral R M a.ref with
    | none => simp [hl] at hslow
    | some l =>
      cases hr : reconstructBlobLiteral R M b.ref with
      | none => simp [hr] at hslow
      | some r =>
        have hterm : termEq R l r = some true := by simpa [hl, hr, isCustomDatatypeTag] using hslow
        unfold termEq at hterm
        split at hterm
        · cases hterm
        · have := Option.some.inj hterm
          simp only [Bool.and_eq_true, decide_eq_true_eq] at this
          simp [this.2]
  simp [textOf, ha, hb, isByteString, hlex]

end Alike

/-! ## The hash follows -/

section Follows

variable {R M} {double : ℤ → BitVec 64}

theorem hashKey_text (hv : v.tag.hasText) : hashKey R M v = some (.text (textOf R M v)) := by
  have hnumeric : v.tag.isNumericFamily = false := by
    rw [hasText, Bool.and_eq_true, Bool.not_eq_true'] at hv
    exact hv.1
  rw [hashKey, if_neg (by simp [hnumeric]), if_pos hv]

theorem hashKey_eq_some (H : R.CastsValues double) (h : cmp R M .eq a b = some true) (hc : HashConsistent R M double a b) :
    ∃ key, hashKey R M a = some key ∧ hashKey R M b = some key := by
  have htexts (ha : a.tag.hasText) (hb : b.tag.hasText) (htext : textOf R M a = textOf R M b) :
      ∃ key, hashKey R M a = some key ∧ hashKey R M b = some key :=
    ⟨_, hashKey_text ha, htext ▸ hashKey_text hb⟩
  have hnumbers (ha : a.tag.isNumericFamily) (hb : b.tag.isNumericFamily)
      (hword : doubleWord double a = doubleWord double b) : ∃ key, hashKey R M a = some key ∧ hashKey R M b = some key := by
    obtain ⟨hka, hkb⟩ := hashKey_numbers H ha hb h
    exact ⟨_, hka, hword ▸ hkb⟩
  have hfamily : ∀ t : XsdType, t.isFixedInteger → t.isNumericFamily := by
    intro t
    cases t <;> decide
  cases hc with
  | alike htag hmem =>
    simp only [List.mem_cons, List.not_mem_nil, or_false] at hmem
    rcases hmem with ha | ha | ha | ha
    · have hkey : hashKey R M a = some (.word (BitVec.ofInt 64 (M.node a.ref).uid)) := by
        simp [hashKey, ha, isNumericFamily, hasText]
      exact ⟨_, hkey, (hashKey_node h ha (htag ▸ ha)).symm.trans hkey⟩
    · exact htexts (by rw [ha]; rfl) (by rw [← htag, ha]; rfl) (textOf_string h ha (htag ▸ ha))
    · exact hnumbers (by rw [ha]; rfl) (by rw [← htag, ha]; rfl) (doubleWord_boolean h double ha (htag ▸ ha))
    · exact htexts (by rw [ha]; rfl) (by rw [← htag, ha]; rfl) (textOf_anyLiteralNode h ha (htag ▸ ha))
  | integers ha hb => exact hnumbers (hfamily _ ha) (hfamily _ hb) (doubleWord_eq_of_integers H ha hb h)
  | numbers ha hb hword => exact hnumbers ha hb hword
  | texts ha hb htext => exact htexts ha hb htext

/-- A variant with something to hash. -/
theorem kind_of_hashKey {key : HashKey} (hkey : hashKey R M v = some key) (hv : v.tag ≠ .unspecified) :
    (v.tag.isNumericFamily ∧ ∃ x, key = .word x) ∨ (v.tag.hasText ∧ key = .text (textOf R M v)) ∨
      (v.tag = .node ∧ ∃ x, key = .word x) := by
  rw [hashKey] at hkey
  split at hkey
  · next hnumeric => exact .inl ⟨hnumeric, _, (Option.some.inj hkey).symm⟩
  · split at hkey
    · next htext => exact .inr (.inl ⟨htext, (Option.some.inj hkey).symm⟩)
    · split at hkey
      · next hnode => exact .inr (.inr ⟨hnode, _, (Option.some.inj hkey).symm⟩)
      · cases hkey

theorem hashConsistent_of_hashKey (H : R.CastsValues double) (h : cmp R M .eq a b = some true) {key : HashKey}
    (ha : hashKey R M a = some key) (hb : hashKey R M b = some key) : HashConsistent R M double a b := by
  have hspecified : a.tag ≠ .unspecified ∧ b.tag ≠ .unspecified := by
    by_contra hnot
    rw [cmp_unspecified R M .eq (by tauto)] at h
    cases h
  have hfamily : ∀ t : XsdType, t.isNumericFamily → t ≠ .anyIRI ∧ t ≠ .node := by
    intro t
    cases t <;> decide
  rcases kind_of_hashKey ha hspecified.1 with ⟨hna, x, rfl⟩ | ⟨hta, rfl⟩ | ⟨hva, x, rfl⟩
  · rcases kind_of_hashKey hb hspecified.2 with ⟨hnb, -⟩ | ⟨-, hkey⟩ | ⟨hvb, -⟩
    · obtain ⟨hka, hkb⟩ := hashKey_numbers H hna hnb h
      rw [ha] at hka
      rw [hb] at hkb
      exact .numbers hna hnb (HashKey.word.inj (Option.some.inj (hka.symm.trans hkb)))
    · cases hkey
    · rw [cmp, if_neg fun htag => (hfamily _ hna).2 (htag.trans hvb)] at h
      exact absurd h (crossTag_node R M (.inr ⟨hvb, (hfamily _ hna).1⟩))
  · rcases kind_of_hashKey hb hspecified.2 with ⟨-, y, hkey⟩ | ⟨htb, hkey⟩ | ⟨-, y, hkey⟩
    · cases hkey
    · exact .texts hta htb (HashKey.text.inj hkey)
    · cases hkey
  · rcases kind_of_hashKey hb hspecified.2 with ⟨hnb, -⟩ | ⟨-, hkey⟩ | ⟨hvb, -⟩
    · rw [cmp, if_neg fun htag => (hfamily _ hnb).2 (htag.symm.trans hva)] at h
      exact absurd h (crossTag_node R M (.inl ⟨hva, (hfamily _ hnb).1⟩))
    · cases hkey
    · exact .alike (hva.trans hvb.symm) (by simp [hva])

/-- **Equal variants have one hash**, whatever the hash functions, exactly if
they are a consistent pair. -/
theorem hash_follows_iff (H : R.CastsValues double) (h : cmp R M .eq a b = some true) :
    (∀ F total, ∃ x, hashImpl R M F total a = some x ∧ hashImpl R M F total b = some x) ↔
      HashConsistent R M double a b := by
  simp only [hashImpl_eq]
  rw [same_hash_iff]
  constructor
  · rintro ⟨key, ha, hb⟩
    exact hashConsistent_of_hashKey H h ha hb
  · exact hashKey_eq_some H h

end Follows

theorem exactLits_castsValues : exactLits.CastsValues doubleOf where
  integer_eq n hn m hm hfn hfm x y h := by
    simp only [exactLits_fromValue hn, exactLits_fromValue hm, hfn, hfm, Bool.false_eq_true, ↓reduceIte,
      exactLits_compare_ofInt, Option.some.injEq, holds_eq_iff] at h
    exact Int.compare_eq_eq.1 h
  nan_ne n hn hf x l hnan := by
    have hvalue : (exactLits.fromValue n.type x).value = .nan := by rw [exactLits_fromValue hn, if_pos hf, hnan]
    constructor
    · show ((exactLits.fromValue n.type x).value.compare l.value).map _ ≠ _
      rw [hvalue]
      nofun
    · show (l.value.compare (exactLits.fromValue n.type x).value).map _ ≠ _
      rw [hvalue, Binary.Value.compare_nan]
      nofun
  integer_cast n hn hf x := by
    simp only [exactLits_fromValue hn, hf]
    rfl
  boolean_cast x _ := rfl
  float_cast x _ := rfl
  double_cast x _ := rfl

/-- The byte `5` and the double `5.0` have one hash. -/
theorem hash_byte_double :
    let a := Variant.createScalar .byte (5 : BitVec 8) (by decide)
    let b := Variant.createScalar .double (0x4014000000000000 : BitVec 64) (by decide)
    cmp exactLits (bareMemory []) .eq a b = some true ∧ ∃ x, hash exactLits (bareMemory []) (fun _ => 0) none a = some x ∧
      hash exactLits (bareMemory []) (fun _ => 0) none b = some x := by
  intro a b
  have heq : cmp exactLits (bareMemory []) .eq a b = some true := by decide +kernel
  exact ⟨heq, (hash_follows_iff exactLits_castsValues heq).2 (.numbers rfl rfl (by decide +kernel)) _ _⟩

/-- The integer `1`, kept as text, equals the long `1`, and has another hash.
The two zeros are equal and have different hashes. An IRI equals itself and is
hashed as what it is not. -/
theorem hash_differs :
    let integer := Variant.createText .integer 0 (by decide)
    let long := Variant.createScalar .long (1 : BitVec 64) (by decide)
    let zero := Variant.createScalar .double (0 : BitVec 64) (by decide)
    let negZero := Variant.createScalar .double (0x8000000000000000 : BitVec 64) (by decide)
    let iri := Variant.createText .anyIRI 0 (by decide)
    let M := bareMemory [49]
    (cmp exactLits M .eq integer long = some true ∧
      hash exactLits M (fun _ => 0) none integer ≠ hash exactLits M (fun _ => 0) none long) ∧
    (cmp exactLits M .eq zero negZero = some true ∧
      hash exactLits M (fun _ => 0) none zero ≠ hash exactLits M (fun _ => 0) none negZero) ∧
    cmp exactLits M .eq iri iri = some true ∧ hash exactLits M (fun _ => 0) none iri = none := by
  decide +kernel

end GengoDB
