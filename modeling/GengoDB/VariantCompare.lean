/-
The comparison of numbers held in variants: the inlined fast path against
the runtime's slow path, and the dispatch on two different numeric tags.

What rdf4cpp does on two values is assumed in its documented terms
(`ComparesValues`, `NumericComparison`): it compares by value. What is proved
is everything between the number a variant was made from (`HoldsNumber`) and
the library: which bits are read, with which sign, and which of the routines
gets them.
-/
import Mathlib.Algebra.Order.Ring.Rat
import GengoDB.Chars
import GengoDB.Variant

namespace GengoDB

open BitVec CmpPredicate XsdType.FixedNumericTag XsdType

variable {Lit : Type*} (R : Rdf4cpp Lit) (M : Memory) {n : XsdType.FixedNumericTag}

/-! ## The inlined comparisons -/

theorem cmpISigned_eq {w : Nat} (p : CmpPredicate) (l r : BitVec w) :
    cmpISigned p l r = p.holds (compare l.toInt r.toInt) := by
  have heq : l = r ↔ l.toInt = r.toInt := toInt_inj.symm
  rw [Bool.eq_iff_iff]
  cases p <;> simp [cmpISigned, holds, BitVec.slt, BitVec.sle, heq, compare_lt_iff_lt, compare_gt_iff_gt,
    Std.isLE_compare, Std.isGE_compare]

theorem cmpIUnsigned_eq {w : Nat} (p : CmpPredicate) (l r : BitVec w) :
    cmpIUnsigned p l r = p.holds (compare (l.toNat : Int) r.toNat) := by
  have heq : l = r ↔ l.toNat = r.toNat := toNat_inj.symm
  rw [Bool.eq_iff_iff]
  cases p <;> simp [cmpIUnsigned, holds, BitVec.ult, BitVec.ule, heq, compare_lt_iff_lt, compare_gt_iff_gt,
    Std.isLE_compare, Std.isGE_compare]

namespace XsdType

/-- The table agrees with the tag predicates and the storage classes. -/
theorem fixedNumericTags_spec : ∀ n ∈ fixedNumericTags, n.type.isNumericFamily ∧ n.type.fromInt32 = some n.type ∧
      8 * n.type.classifyStorage.2 = n.bitWidth ∧ n.bitWidth ≤ 64 ∧ n.type ≠ .boolean ∧
      fixedNumericTags.find? (fun m => m.type = n.type) = some n := by
  decide

namespace FixedNumericTag

/-- The fast case on integers is the comparison of their values. -/
theorem cmp_eq_intValue {n : FixedNumericTag} (hf : n.isFloat = false) (p : CmpPredicate) (l r : BitVec 64) :
    n.cmp p l r = p.holds (compare (n.intValue l) (n.intValue r)) := by
  unfold FixedNumericTag.cmp FixedNumericTag.intValue
  by_cases hu : n.isUnsigned
  · simp [hf, hu, cmpIUnsigned_eq]
  · simp [hf, hu, cmpISigned_eq]

theorem cmp_eq_floatValue {n : FixedNumericTag} (hf : n.isFloat) (p : CmpPredicate) {l r : BitVec 64}
    {x y : Int} (hl : n.floatValue l = .fin x) (hr : n.floatValue r = .fin y) :
    n.cmp p l r = p.holds (compare x y) := by
  unfold floatValue at hl hr
  simp only [FixedNumericTag.cmp, hf, cmpF, hl, hr, Binary.Value.compare_fin, ↓reduceIte]

end FixedNumericTag

end XsdType

/-! ## Fast path and slow path -/

/-- The numeric words `BitVec.setWidth` cuts out of a payload and out of its
low bytes are the same. -/
theorem setWidth_lowBytes {bytes w : Nat} (hw : 8 * bytes = w) (hle : w ≤ 64) (x : BitVec 64) :
    (lowBytes bytes x).setWidth w = x.setWidth w := by
  subst hw
  unfold lowBytes
  rw [setWidth_setWidth_of_le _ hle, setWidth_eq]

section
variable (hn : n ∈ XsdType.fixedNumericTags) (x : BitVec 64)
include hn x

theorem getLiteralFromNumeric_fixed :
    getLiteralFromNumeric R x n.type = some (R.fromValue n.type (lowBytes n.type.classifyStorage.2 x)) := by
  obtain ⟨hnum, hfrom, -⟩ := fixedNumericTags_spec n hn
  simp [getLiteralFromNumeric, hfrom, hnum]

theorem intValue_lowBytes : n.intValue (lowBytes n.type.classifyStorage.2 x) = n.intValue x := by
  obtain ⟨-, -, hw, hle, -⟩ := fixedNumericTags_spec n hn
  unfold intValue
  rw [setWidth_lowBytes hw hle]

theorem floatValue_lowBytes : n.floatValue (lowBytes n.type.classifyStorage.2 x) = n.floatValue x := by
  obtain ⟨-, -, hw, hle, -⟩ := fixedNumericTags_spec n hn
  unfold floatValue
  rw [setWidth_lowBytes hw hle]

end

/-- rdf4cpp compares two literals of one type by value: booleans with false
below true, integers as integers, floats with integer values as those. -/
structure Rdf4cpp.ComparesValues : Prop where
  boolean : ∀ (p : CmpPredicate) (x y : BitVec 64), x.toNat ≤ 1 → y.toNat ≤ 1 →
    R.compare p (R.fromValue .boolean x) (R.fromValue .boolean y) = some (p.holds (Ord.compare (x.toNat : Int) y.toNat))
  integer : ∀ n ∈ XsdType.fixedNumericTags, n.isFloat = false → ∀ (p : CmpPredicate) (x y : BitVec 64),
    R.compare p (R.fromValue n.type x) (R.fromValue n.type y) =
      some (p.holds (Ord.compare (n.intValue x) (n.intValue y)))
  float : ∀ n ∈ XsdType.fixedNumericTags, n.isFloat = true → ∀ (p : CmpPredicate) (x y : BitVec 64) (s t : Int),
    n.floatValue x = .fin s → n.floatValue y = .fin t → Binary.one ∣ s → Binary.one ∣ t →
    R.compare p (R.fromValue n.type x) (R.fromValue n.type y) = some (p.holds (Ord.compare s t))

/-- A float or double has an integer value. -/
def IntegerValued (v : Variant) : Prop :=
  ∀ n ∈ XsdType.fixedNumericTags, n.type = v.tag → n.isFloat = true →
    ∃ s, n.floatValue v.ref = .fin s ∧ Binary.one ∣ s

/-- On the fixed numeric tags the two paths agree. -/
theorem fastCase_eq_slow_fixed {R : Rdf4cpp Lit} (H : R.ComparesValues) (p : CmpPredicate) {a b : Variant}
    (htag : a.tag = b.tag) (hn : n ∈ fixedNumericTags) (hna : n.type = a.tag) (ha : IntegerValued a)
    (hb : IntegerValued b) : fastCase p a.tag a.ref b.ref = compareNumericCross R p a.ref b.ref a.tag b.tag := by
  obtain ⟨-, -, -, -, hbool, hfind⟩ := fixedNumericTags_spec n hn
  rw [← htag, ← hna]
  simp only [fastCase, hbool, hfind, compareNumericCross, getLiteralFromNumeric_fixed R hn, ↓reduceIte, Option.map_some]
  by_cases hf : n.isFloat
  · obtain ⟨s, hs, hds⟩ := ha n hn hna hf
    obtain ⟨t, ht, hdt⟩ := hb n hn (hna.trans htag) hf
    rw [cmp_eq_floatValue hf p hs ht]
    rw [← floatValue_lowBytes hn] at hs ht
    rw [H.float n hn hf p _ _ s t hs ht hds hdt]
  · have hf : n.isFloat = false := by simpa using hf
    rw [cmp_eq_intValue hf, H.integer n hn hf, intValue_lowBytes hn, intValue_lowBytes hn]

/-- On booleans the fast path compares `i1` words with the signed predicates,
where true is below false. -/
theorem fastCase_eq_slow_boolean {R : Rdf4cpp Lit} (H : R.ComparesValues) (p : CmpPredicate) {x y : BitVec 64}
    (hx : (x.setWidth 8).toNat ≤ 1) (hy : (y.setWidth 8).toNat ≤ 1) :
    fastCase p .boolean x y = compareNumericCross R p x y .boolean .boolean ↔
      p = .eq ∨ p = .neq ∨ x.setWidth 8 = y.setWidth 8 := by
  have hx1 : x.setWidth 1 = (x.setWidth 8).setWidth 1 := (setWidth_setWidth_of_le x (by decide)).symm
  have hy1 : y.setWidth 1 = (y.setWidth 8).setWidth 1 := (setWidth_setWidth_of_le y (by decide)).symm
  have hslow : compareNumericCross R p x y .boolean .boolean =
      some (p.holds (compare ((x.setWidth 8).toNat : Int) (y.setWidth 8).toNat)) := by
    have h := H.boolean p ((x.setWidth 8).setWidth 64) ((y.setWidth 8).setWidth 64)
    exact h hx hy
  rw [hslow, fastCase, if_pos rfl, hx1, hy1]
  generalize x.setWidth 8 = u at hx
  generalize y.setWidth 8 = v at hy
  have bit : ∀ w : BitVec 8, w.toNat ≤ 1 → w = 0 ∨ w = 1 := by
    intro w hw
    rcases Nat.le_one_iff_eq_zero_or_eq_one.1 hw with h | h
    · exact .inl (eq_of_toNat_eq h)
    · exact .inr (eq_of_toNat_eq h)
  rcases bit u hx with rfl | rfl <;> rcases bit v hy with rfl | rfl <;> cases p <;> decide

/-- **The fast path returns what the slow path returns**, except for an order
comparison of two different booleans. -/
theorem fastCase_eq_slow_iff {R : Rdf4cpp Lit} (H : R.ComparesValues) (p : CmpPredicate) {a b : Variant}
    (htag : a.tag = b.tag) (hfast : a.tag = .boolean ∨ ∃ n ∈ XsdType.fixedNumericTags, n.type = a.tag)
    (ha : IntegerValued a) (hb : IntegerValued b) :
    fastCase p a.tag a.ref b.ref = compareNumericCross R p a.ref b.ref a.tag b.tag ↔
      a.tag ≠ .boolean ∨ p = .eq ∨ p = .neq ∨ a.ref.setWidth 8 = b.ref.setWidth 8 := by
  by_cases hbool : a.tag = .boolean
  · have hbool' : b.tag = .boolean := htag ▸ hbool
    rw [hbool, hbool']
    simpa using fastCase_eq_slow_boolean H p (a.boolByte hbool) (b.boolByte hbool')
  · obtain ⟨n, hn, hna⟩ := hfast.resolve_left hbool
    simp [hbool, fastCase_eq_slow_fixed H p htag hn hna ha hb]

theorem compare_mul_left {d : Int} (hd : 0 < d) (i j : Int) : compare (d * i) (d * j) = compare i j := by
  rcases Int.lt_trichotomy i j with h | rfl | h
  · rw [Int.compare_eq_lt.2 h, Int.compare_eq_lt.2 (Int.mul_lt_mul_of_pos_left h hd)]
  · simp
  · rw [Int.compare_eq_gt.2 h, Int.compare_eq_gt.2 (Int.mul_lt_mul_of_pos_left h hd)]

theorem Binary.one_pos : 0 < Binary.one := Int.pow_pos (by decide)

theorem exactLits_compare_ofInt (p : CmpPredicate) (i j : Int) (s t : Bytes) :
    exactLits.compare p (.ofInt i s) (.ofInt j t) = some (p.holds (compare i j)) := by
  simp [exactLits, ExactLiteral.ofInt, compare_mul_left Binary.one_pos]

theorem exactLits_fromValue (hn : n ∈ fixedNumericTags) (x : BitVec 64) : exactLits.fromValue n.type x =
      if n.isFloat then
        ⟨n.floatValue x, if n.bitWidth = 32 then BitVec.ofNat 64 (Binary.widen (x.setWidth 32).toNat) else x, []⟩
      else .ofInt (n.intValue x) [] := by
  obtain ⟨-, -, -, -, -, hfind⟩ := fixedNumericTags_spec n hn
  simp [exactLits, ExactLiteral.fromValue, hfind]

theorem exactLits_comparesValues : exactLits.ComparesValues where
  boolean p x y _ _ := exactLits_compare_ofInt p x.toNat y.toNat [] []
  integer n hn hf p x y := by
    simp [exactLits_fromValue hn, hf, exactLits_compare_ofInt]
  float n hn hf p x y s t hs ht _ _ := by
    simp only [exactLits_fromValue hn, hf, hs, ht]
    rfl

/-- The bytes `-1` and `1`: the fast path is the slow path. -/
theorem fastCase_eq_slow_bytes :
    let l := Variant.createScalar .byte (0xff : BitVec 8) (by decide)
    let r := Variant.createScalar .byte (0x01 : BitVec 8) (by decide)
    fastCase .lt l.tag l.ref r.ref = compareNumericCross exactLits .lt l.ref r.ref l.tag r.tag ∧
      fastCase .lt l.tag l.ref r.ref = some true := by
  intro l r
  refine ⟨(fastCase_eq_slow_iff exactLits_comparesValues .lt (a := l) (b := r) rfl ?_ ?_ ?_).2 ?_, by decide⟩
  · exact .inr ⟨⟨.byte, 8, false, false⟩, by decide, rfl⟩
  · rintro n hn hna hf
    exact absurd hf (by revert n; decide)
  · rintro n hn hna hf
    exact absurd hf (by revert n; decide)
  · exact .inl (by decide)

/-- False and true: the fast path denies that false is below true. -/
theorem fastCase_boolean_lt :
    let l := Variant.createScalar .boolean (0 : BitVec 1) (by decide)
    let r := Variant.createScalar .boolean (1 : BitVec 1) (by decide)
    fastCase .lt l.tag l.ref r.ref = some false ∧
      compareNumericCross exactLits .lt l.ref r.ref l.tag r.tag = some true := by
  decide +kernel

/-! ## Two different numeric tags -/

namespace XsdType

def isFixedNumeric (t : XsdType) : Bool := fixedNumericTags.any fun n => n.type = t

/-- The numeric tags: the fixed-width ones and the two kept as text. -/
def isNumeric (t : XsdType) : Bool := t.isFixedNumeric || t == .integer || t == .decimal

/-- One of the tags is decimal and the other fixed-width. -/
def DecimalVsFixed (t u : XsdType) : Prop :=
  t = .decimal ∧ u.isFixedNumeric = true ∨ t.isFixedNumeric = true ∧ u = .decimal

/-- What the dispatch tests say of a numeric tag. -/
theorem isNumeric_spec (t : XsdType) (h : t.isNumeric) :
    isResource t = false ∧ isCustomDatatypeTag t = false ∧ t.isNumericFamily = t.isFixedNumeric ∧
      t ≠ .anyIRI ∧ t.isScratchPayload = t.isFixedNumeric ∧
      (t.isFixedNumeric ∨ t = .integer ∨ t = .decimal) := by
  revert h
  cases t <;> decide

theorem isFixedNumeric_spec (t : XsdType) (h : t.isFixedNumeric) :
    t.fromInt32 = some t ∧ t ≠ .unspecified ∧ t.isByteString = false ∧ t ≠ .anyLiteralScalar ∧
      t.classifyStorage.1 ≠ .blob ∧ t ≠ .integer ∧ t ≠ .decimal := by
  revert h
  cases t <;> decide

end XsdType

theorem isFixedNumeric_of_mem (hn : n ∈ fixedNumericTags) : n.type.isFixedNumeric :=
  List.any_eq_true.2 ⟨n, hn, decide_eq_true rfl⟩

theorem reconstructLiteral_fixed {t : XsdType} (h : t.isFixedNumeric) (x : BitVec 64) :
    reconstructLiteral R M x t = getLiteralFromNumeric R x t := by
  obtain ⟨hfrom, hun, hbs, hsc, hbl, -⟩ := t.isFixedNumeric_spec h
  unfold reconstructLiteral
  rw [hfrom]
  split
  · next e => cases e
  · next e => exact absurd (Option.some.inj e) hun
  · next e =>
    obtain rfl := Option.some.inj e
    simp [hbs, hsc, hbl]

/-- Comparison of two literals, if there are two. -/
def compareLiterals? (p : CmpPredicate) : Option Lit → Option Lit → Option Bool
  | some l, some r => R.compare p l r
  | _, _ => none

section CrossTag

variable {a b : Variant} (ha : a.tag.isNumeric = true) (hb : b.tag.isNumeric = true)

include ha hb

/-- Otherwise the two literals are compared: by `compareNumericCross` if both
tags are fixed-width, by `compareBlobLiteral` if one is integer. -/
theorem crossTag_of_not_decimal (hne : a.tag ≠ b.tag) (hd : ¬ XsdType.DecimalVsFixed a.tag b.tag) (p : CmpPredicate) :
    crossTag R M p a b =
      compareLiterals? R p (reconstructLiteral R M a.ref a.tag) (reconstructLiteral R M b.ref b.tag) := by
  obtain ⟨har, hac, haf, -, -, hak⟩ := a.tag.isNumeric_spec ha
  obtain ⟨hbr, hbc, hbf, -, -, hbk⟩ := b.tag.isNumeric_spec hb
  by_cases hboth : a.tag.isFixedNumeric ∧ b.tag.isFixedNumeric
  · rw [reconstructLiteral_fixed R M hboth.1, reconstructLiteral_fixed R M hboth.2]
    simp only [crossTag, har, hbr, haf, hbf, hboth, compareNumericCross]
    cases getLiteralFromNumeric R a.ref a.tag <;> cases getLiteralFromNumeric R b.ref b.tag <;>
      simp [compareLiterals?]
  · have hint : a.tag = .integer ∨ b.tag = .integer := by
      simp only [XsdType.DecimalVsFixed] at hd
      grind
    have hnum : (a.tag.isNumericFamily && b.tag.isNumericFamily) = false := by
      rw [haf, hbf]
      simpa using hboth
    have hanyInt : (a.tag == .integer || b.tag == .integer) := by simpa using hint
    simp only [crossTag, har, hbr, hnum, hanyInt, compareBlobLiteral, hac, hbc]
    cases reconstructLiteral R M a.ref a.tag <;> cases reconstructLiteral R M b.ref b.tag <;>
      simp [compareLiterals?]

end CrossTag

/-! ## Numbers in variants -/

/-- A number: an integer or a decimal, or what a float stands for. -/
inductive Number where
  | exact (q : ℚ)
  | binary (v : Binary.Value)
  deriving DecidableEq

/-- The number a value of a fixed-width type is; a NaN is none. -/
def XsdType.FixedNumericTag.number (n : XsdType.FixedNumericTag) (value : BitVec n.bitWidth) : Option Number :=
  if n.isFloat then
    match n.format.decode value.toNat with
    | .nan => none
    | v => some (.binary v)
  else if n.isUnsigned then some (.exact value.toNat)
  else some (.exact value.toInt)

/-- The number a text stands for in `xsd:integer` and `xsd:decimal`: a sign and
digits, in a decimal also digits behind a point. -/
def lexicalValue (t : XsdType) (text : Bytes) : Option ℚ :=
  let (sign, s) : ℚ × Bytes := match text with
    | 45 :: s => (-1, s)
    | 43 :: s => (1, s)
    | s => (1, s)
  let whole := s.takeWhile Chars.isDigit
  match s.dropWhile Chars.isDigit with
  | [] => if whole = [] then none else some (sign * digits whole)
  | 46 :: fraction =>
    if t = .decimal ∧ fraction.all Chars.isDigit ∧ (whole ≠ [] ∨ fraction ≠ []) then
      some (sign * (digits whole + digits fraction / 10 ^ fraction.length))
    else none
  | _ => none

/-- What a graph writes for a literal of a fixed-width type (`resolve(Literal)`):
values up to 32 bits into the property, the others into the column of their
kind. -/
structure NodeView.Stores (entry : NodeView) (n : XsdType.FixedNumericTag) (value : BitVec n.bitWidth) : Prop where
  literal : 0 ≤ entry.payload
  type : entry.propType = n.type
  inlined : n.bitWidth ≤ 32 → entry.propValue = value.setWidth 32
  long : n.type = .long → entry.i64 = value.setWidth 64
  unsignedLong : n.type = .unsignedLong → entry.ui64 = value.setWidth 64
  double : n.type = .double → entry.dbl = value.setWidth 64

theorem fixed_ne_boolean {n : XsdType.FixedNumericTag} (hn : n ∈ fixedNumericTags) (h : n.type = .boolean) :
    n.bitWidth = 1 := absurd h (fixedNumericTags_spec n hn).2.2.2.2.1

theorem ne_boolean_of_text {t : XsdType} (ht : t = .integer ∨ t = .decimal) : t ≠ .boolean := by
  rintro rfl
  cases ht <;> contradiction

/-- The variant was made from this number of this type: a value or a text of the
query, or a literal of a graph. The text of a node is copied to the slot. -/
inductive HoldsNumber (M : Memory) : Variant → XsdType → Number → Prop
  | scalar {n : XsdType.FixedNumericTag} (hn : n ∈ fixedNumericTags) (value : BitVec n.bitWidth) {x : Number} :
    n.number value = some x → HoldsNumber M (.createScalar n.type value (fixed_ne_boolean hn)) n.type x
  | node {n : XsdType.FixedNumericTag} (hn : n ∈ fixedNumericTags) (value : BitVec n.bitWidth) {x : Number}
    (ref scratch slot : BitVec 64) : n.number value = some x → (M.node ref).Stores n value →
    HoldsNumber M (createNodeRef M ref scratch slot) n.type x
  | text {t : XsdType} (ht : t = .integer ∨ t = .decimal) (slot : BitVec 64) {q : ℚ} :
    lexicalValue t (M.varLen slot) = some q → HoldsNumber M (.createText t slot (ne_boolean_of_text ht)) t (.exact q)
  | textNode {t : XsdType} (ht : t = .integer ∨ t = .decimal) (ref scratch slot : BitVec 64) {q : ℚ} :
    0 ≤ (M.node ref).payload → (M.node ref).propType = t → M.varLen slot = (M.node ref).lex →
    lexicalValue t (M.node ref).lex = some q → HoldsNumber M (createNodeRef M ref scratch slot) t (.exact q)

/-- Integers and decimals by their numbers, anything else by the other order. -/
def numberOrder (floatOrder : XsdType × Number → XsdType × Number → Ordering) (x y : XsdType × Number) : Ordering :=
  match x.2, y.2 with
  | .exact q, .exact q' => compare q q'
  | _, _ => floatOrder x y

/-- rdf4cpp's comparison of numeric literals: it knows the number of a literal
made from a value or from a text, and compares integers and decimals by it. If
there is a float, the order is after the promotion of one type to the other;
that it is symmetric is all that is asked of it. -/
structure Rdf4cpp.NumericComparison where
  value : Lit → Option (XsdType × Number)
  floatOrder : XsdType × Number → XsdType × Number → Ordering
  swap : ∀ x y, floatOrder y x = (floatOrder x y).swap
  value_fromValue : ∀ n ∈ XsdType.fixedNumericTags, ∀ (v : BitVec n.bitWidth) (x : Number), n.number v = some x →
    value (R.fromValue n.type (v.setWidth 64)) = some (n.type, x)
  value_makeTyped : ∀ t, t = .integer ∨ t = .decimal → ∀ (s : Bytes) (q : ℚ), lexicalValue t s = some q →
    value (R.makeTyped s (.xsd t)) = some (t, .exact q)
  compare_eq : ∀ (p : CmpPredicate) (l r : Lit) (x y : XsdType × Number), value l = some x → value r = some y →
    R.compare p l r = some (p.holds (numberOrder floatOrder x y))

section Held

variable {R : Rdf4cpp Lit} {M : Memory} {v : Variant} {t u : XsdType} {x y : Number}

theorem HoldsNumber.tag (h : HoldsNumber M v t x) : v.tag = t := by
  have hnode {ref scratch slot : BitVec 64} (hpayload : 0 ≤ (M.node ref).payload) :
      (createNodeRef M ref scratch slot).tag = (M.node ref).propType := if_neg (not_lt.2 hpayload)
  cases h with
  | scalar hn value hx => rfl
  | node hn value ref scratch slot hx hstored => rw [hnode hstored.literal, hstored.type]
  | text ht slot hq => rfl
  | textNode ht ref scratch slot hpayload htype hslot hq => rw [hnode hpayload, htype]

theorem HoldsNumber.isNumeric (h : HoldsNumber M v t x) : t.isNumeric := by
  have hfixed {n : XsdType.FixedNumericTag} (hn : n ∈ fixedNumericTags) : n.type.isNumeric := by
    revert n
    decide
  have htext {t : XsdType} (ht : t = .integer ∨ t = .decimal) : t.isNumeric := by rcases ht with rfl | rfl <;> rfl
  cases h with
  | scalar hn value hx => exact hfixed hn
  | node hn value ref scratch slot hx hstored => exact hfixed hn
  | text ht slot hq => exact htext ht
  | textNode ht ref scratch slot hpayload htype hslot hq => exact htext ht

/-- The low bytes of a value in a payload are the value. -/
theorem lowBytes_of_setWidth {n : XsdType.FixedNumericTag} (hn : n ∈ fixedNumericTags) {payload : BitVec 64}
    {value : BitVec n.bitWidth} (h : payload.setWidth n.bitWidth = value) :
    lowBytes n.type.classifyStorage.2 payload = value.setWidth 64 := by
  obtain ⟨-, -, hw, -⟩ := fixedNumericTags_spec n hn
  rw [lowBytes, ← h, ← hw]

/-- What a graph stored is what is read from its node. -/
theorem NodeView.Stores.stored {entry : NodeView} {n : XsdType.FixedNumericTag} (hn : n ∈ fixedNumericTags)
    {value : BitVec n.bitWidth} (h : entry.Stores n value) :
    (entry.stored n.type.classifyStorage.1).setWidth n.bitWidth = value := by
  simp only [fixedNumericTags, List.mem_cons, List.not_mem_nil, or_false] at hn
  rcases hn with rfl | rfl | rfl | rfl | rfl | rfl | rfl | rfl | rfl | rfl
  case inr.inr.inr.inl => simp [XsdType.classifyStorage, NodeView.stored, h.long rfl]
  case inr.inr.inr.inr.inr.inr.inr.inl => simp [XsdType.classifyStorage, NodeView.stored, h.unsignedLong rfl]
  case inr.inr.inr.inr.inr.inr.inr.inr.inr => simp [XsdType.classifyStorage, NodeView.stored, h.double rfl]
  all_goals simp [XsdType.classifyStorage, NodeView.stored, h.inlined (by decide)]

theorem extractNumericLiteral_of_ne_blob {ref scratch : BitVec 64} (h : t.classifyStorage.1 ≠ .blob) :
    extractNumericLiteral M ref t scratch = writeLow t.classifyStorage.2 ((M.node ref).stored t.classifyStorage.1) scratch := by
  unfold extractNumericLiteral
  split
  · next heq => exact absurd (congrArg Prod.fst heq) h
  · next heq => rw [heq]

theorem value_fixed (H : R.NumericComparison) {n : XsdType.FixedNumericTag} (hn : n ∈ fixedNumericTags)
    {value : BitVec n.bitWidth} (hx : n.number value = some x) {payload : BitVec 64}
    (hpayload : payload.setWidth n.bitWidth = value) :
    ∃ l, reconstructLiteral R M payload n.type = some l ∧ H.value l = some (n.type, x) := by
  refine ⟨_, ?_, H.value_fromValue n hn value x hx⟩
  rw [reconstructLiteral_fixed R M (isFixedNumeric_of_mem hn), getLiteralFromNumeric_fixed R hn,
    lowBytes_of_setWidth hn hpayload]

theorem value_text (H : R.NumericComparison) (ht : t = .integer ∨ t = .decimal) {q : ℚ} {slot : BitVec 64}
    (hq : lexicalValue t (M.varLen slot) = some q) :
    ∃ l, reconstructLiteral R M slot t = some l ∧ H.value l = some (t, .exact q) := by
  refine ⟨_, ?_, H.value_makeTyped t ht _ q hq⟩
  rcases ht with rfl | rfl <;> rfl

theorem HoldsNumber.literal (H : R.NumericComparison) (h : HoldsNumber M v t x) :
    ∃ l, reconstructLiteral R M v.ref t = some l ∧ H.value l = some (t, x) := by
  have htag := h.tag
  cases h with
  | @scalar n hn value x hx =>
    obtain ⟨-, -, -, hle, -⟩ := fixedNumericTags_spec n hn
    exact value_fixed H hn hx ((setWidth_setWidth_of_le value hle).trans (setWidth_eq value))
  | @node n hn value x ref scratch slot hx hstored =>
    obtain ⟨hnum, -, hw, -⟩ := fixedNumericTags_spec n hn
    refine value_fixed H hn hx ?_
    have hresolve : resolveRefTag M ref = n.type := htag
    have hblob : n.type.classifyStorage.1 ≠ .blob := (n.type.isFixedNumeric_spec (isFixedNumeric_of_mem hn)).2.2.2.2.1
    have href : (createNodeRef M ref scratch slot).ref =
        writeLow n.type.classifyStorage.2 ((M.node ref).stored n.type.classifyStorage.1) scratch := by
      simp only [createNodeRef, hresolve, hnum, if_true, extractNumericLiteral_of_ne_blob hblob]
    have hlow := lowBytes_writeLow n.type.classifyStorage.2 ((M.node ref).stored n.type.classifyStorage.1) scratch
    rw [hw] at hlow
    rw [href, hlow, hstored.stored hn]
  | text ht slot hq => exact value_text H ht hq
  | textNode ht ref scratch slot hpayload htype hslot hq =>
    have hresolve : resolveRefTag M ref = t := htag
    have href : (createNodeRef M ref scratch slot).ref = slot := by
      simp only [createNodeRef, hresolve]
      rcases ht with rfl | rfl <;> rfl
    rw [href]
    exact value_text H ht (hslot ▸ hq)

end Held

/-- The order of floats among all numbers, without promotion. -/
def Number.place : Number → ℤ × ℚ
  | .exact q => (0, q)
  | .binary .nan => (2, 0)
  | .binary (.inf neg) => (if neg then -1 else 1, 0)
  | .binary (.fin scaled) => (0, scaled / Binary.one)

end GengoDB
