/-
Sums, differences and products of two variants of one integer tag.
`ArithOpLowering` computes them in words of the tag's width, `arithBlobNumeric`
with literals, whose integers have no bound: the two agree just where the exact
result is a value of the tag (`arith_exact_iff`).
-/
import Mathlib.Logic.Equiv.Nat
import GengoDB.VariantCompare
import GengoDB.VariantTyping

namespace GengoDB

open BitVec XsdType

/-- The exact result; a quotient of integers is not inlined. -/
def ArithPredicate.exact (p : ArithPredicate) (x y : Int) : Int :=
  match p with
  | .add => x + y
  | .sub => x - y
  | .mul => x * y
  | .div => x / y

namespace XsdType.FixedNumericTag

/-- The tag has a word for the integer. -/
def InRange (n : FixedNumericTag) (z : Int) : Prop :=
  if n.isUnsigned then 0 ≤ z ∧ z < 2 ^ n.bitWidth else -2 ^ n.bitWidth ≤ 2 * z ∧ 2 * z < 2 ^ n.bitWidth

variable {n : FixedNumericTag} {p : ArithPredicate}

/-- The words of a tag are the integers modulo the tag's width. -/
theorem applyIntArith_eq_ofInt (hp : p ≠ .div) (x y : BitVec 64) :
    TypedVariant.applyIntArith p (x.setWidth n.bitWidth) (y.setWidth n.bitWidth) =
      BitVec.ofInt n.bitWidth (p.exact (n.intValue x) (n.intValue y)) := by
  have hword (x : BitVec 64) : x.setWidth n.bitWidth = BitVec.ofInt n.bitWidth (n.intValue x) := by
    unfold intValue
    split
    · rw [ofInt_natCast, ofNat_toNat, setWidth_eq]
    · rw [ofInt_toInt]
  rw [hword x, hword y]
  cases p with
  | add => exact (ofInt_add ..).symm
  | sub => rw [ArithPredicate.exact, Int.sub_eq_add_neg, BitVec.ofInt_add, BitVec.ofInt_neg, ← BitVec.sub_eq_add_neg]; rfl
  | mul => exact (ofInt_mul ..).symm
  | div => exact absurd rfl hp

theorem intValue_ofInt (hw : n.bitWidth ≤ 64) (z : Int) :
    n.intValue ((BitVec.ofInt n.bitWidth z).setWidth 64) = z ↔ n.InRange z := by
  unfold intValue InRange
  have hpos := Nat.two_pow_pos n.bitWidth
  have hcast : ((2 ^ n.bitWidth : Nat) : Int) = 2 ^ n.bitWidth := by simp
  rw [setWidth_setWidth_of_le _ hw, setWidth_eq, toNat_ofInt, toInt_ofInt, ← hcast]
  generalize 2 ^ n.bitWidth = m at hpos
  split
  · have hnonneg := Int.emod_nonneg z (b := m) (by omega)
    have hlt := Int.emod_lt_of_pos z (b := m) (by omega)
    rw [Int.toNat_of_nonneg hnonneg]
    exact ⟨fun h => by omega, fun h => Int.emod_eq_of_lt h.1 h.2⟩
  · have hle := Int.le_bmod (x := z) hpos
    have hlt := Int.bmod_lt (x := z) hpos
    exact ⟨fun h => by omega, fun h => Int.bmod_eq_of_le (by omega) (by omega)⟩

end XsdType.FixedNumericTag

/-- rdf4cpp computes exactly with integers: `value` is what an integer literal
stands for, and a result is an `xsd:integer` that can be read back. -/
structure Rdf4cppOps.ExactIntegers {Lit : Type} (R : Rdf4cppOps Lit) (value : Lit → Option Int) : Prop where
  fromValue : ∀ n ∈ XsdType.fixedNumericTags, n.isFloat = false → ∀ x, value (R.fromValue n.type x) = some (n.intValue x)
  arith : ∀ p ≠ .div, ∀ l r i j, value l = some i → value r = some j → ∃ res, R.arith p l r = some res ∧
    XsdType.fromIri (some (R.datatype res)) = .integer ∧
      value (R.makeTyped (R.lexicalForm res) (.xsd .integer)) = some (p.exact i j)

namespace TypedVariant

open Fallible (ok_bind)

variable {Lit : Type} {R : Rdf4cppOps Lit} {H : Heap} {value : Lit → Option Int} {n : XsdType.FixedNumericTag}
  {p : ArithPredicate}

/-- The literal of the variant stands for the integer. -/
def Denotes (R : Rdf4cppOps Lit) (H : Heap) (value : Lit → Option Int) (v : TypedVariant) (z : Int) : Prop :=
  ∃ l, v.reconstructLiteral R.toRdf4cpp H .lhs = .ok (some l) ∧ value l = some z

theorem reconstructLiteral_inline (hn : n ∈ fixedNumericTags) (side : Side) (x : BitVec 64) :
    (⟨n.type, .inline x⟩ : TypedVariant).reconstructLiteral R.toRdf4cpp H side =
      .ok (some (R.fromValue n.type (lowBytes n.type.classifyStorage.2 x))) := by
  simp only [fixedNumericTags, List.mem_cons, List.not_mem_nil, or_false] at hn
  rcases hn with rfl | rfl | rfl | rfl | rfl | rfl | rfl | rfl | rfl | rfl <;> rfl

/-- **The inlined result is the exact one** just if the tag has it. -/
theorem arith_exact_iff (hR : R.ExactIntegers value) (hn : n ∈ XsdType.fixedNumericTags) (hf : n.isFloat = false)
    (hp : p ≠ .div) (scratch x y : BitVec 64) :
    let z := p.exact (n.intValue x) (n.intValue y)
    ∃ slow fast, arithBlobNumeric R H scratch p ⟨n.type, .inline x⟩ ⟨n.type, .inline y⟩ = .ok slow ∧
      slow.Denotes R H value z ∧ arith R H scratch p ⟨n.type, .inline x⟩ ⟨n.type, .inline y⟩ = .ok fast ∧
      (fast.Denotes R H value z ↔ n.InRange z) := by
  intro z
  have hvalue (x : BitVec 64) : value (R.fromValue n.type (lowBytes n.type.classifyStorage.2 x)) = some (n.intValue x) := by
    rw [hR.fromValue n hn hf, intValue_lowBytes hn]
  obtain ⟨-, -, -, hw, -, hfind⟩ := fixedNumericTags_spec n hn
  obtain ⟨res, hres, htag, hres'⟩ := hR.arith p hp _ _ _ _ (hvalue x) (hvalue y)
  have hfind : fixedNumericTags.find? (fun m => m.type = n.type ∧ (m.isFloat ∨ p ≠ .div)) = some n := by
    simpa [hp] using hfind
  refine ⟨⟨.integer, .text (some (R.lexicalForm res))⟩, fastArith R p n x y, ?_, ⟨_, rfl, hres'⟩, ?_, ?_⟩
  · simp only [arithBlobNumeric, reconstructLiteral_inline hn, ok_bind, hres, htag]
    rfl
  · simp only [arith, hfind]
    rfl
  · simp only [fastArith, hf, Bool.false_eq_true, if_false, XsdType.FixedNumericTag.applyIntArith_eq_ofInt hp]
    simp only [Denotes, reconstructLiteral_inline hn]
    simp [hvalue, XsdType.FixedNumericTag.intValue_ofInt hw, z]

/-- A library of integers, each written by its number. -/
def unaryOps : Rdf4cppOps Int where
  makeTyped lex _ := Equiv.intEquivNat.symm lex.length
  makeLangTagged _ _ := 0
  fromValue t x := ((XsdType.fixedNumericTags.find? fun n => n.type = t).map (·.intValue x)).getD 0
  null _ := false
  compare p l r := some (p.holds (Ord.compare l r))
  order := Ord.compare
  datatype _ := XsdType.xsdIri "integer"
  lexicalForm z := .replicate (Equiv.intEquivNat z) 49
  castToDouble _ := none
  arith p l r := some (p.exact l r)
  cast _ _ := none
  value _ _ := 0
  languageTag _ := []
  langMatches _ _ := false
  print _ := []
  floatArith _ _ l _ := l

theorem exactIntegers_unaryOps : unaryOps.ExactIntegers some where
  fromValue n hn _ x := by
    obtain ⟨-, -, -, -, -, hfind⟩ := fixedNumericTags_spec n hn
    simp [unaryOps, hfind]
  arith p _ l r i j hi hj := by
    cases hi
    cases hj
    have htag : fromIri (some (xsdIri "integer")) = .integer := by decide
    exact ⟨_, rfl, htag, by simp [unaryOps]⟩

theorem arith_exact_short : ∃ v, arith unaryOps craftedHeap 0 .mul ⟨.short, .inline 100⟩ ⟨.short, .inline 3⟩ = .ok v ∧
    v.Denotes unaryOps craftedHeap some 300 := by
  obtain ⟨-, v, -, -, hv, hiff⟩ := arith_exact_iff exactIntegers_unaryOps (H := craftedHeap)
    (n := ⟨.short, 16, false, false⟩) (p := .mul) (by decide) rfl (by decide) 0 100 3
  exact ⟨v, hv, hiff.2 ⟨by decide, by decide⟩⟩

/-- The bytes 127 and 1 add up to -128. -/
theorem arith_wraps :
    arith unaryOps craftedHeap 0 .add ⟨.byte, .inline 127⟩ ⟨.byte, .inline 1⟩ = .ok ⟨.byte, .inline 128⟩ ∧
      Denotes unaryOps craftedHeap some ⟨.byte, .inline 128⟩ (-128) ∧
      ∃ slow, arithBlobNumeric unaryOps craftedHeap 0 .add ⟨.byte, .inline 127⟩ ⟨.byte, .inline 1⟩ = .ok slow ∧
        slow.Denotes unaryOps craftedHeap some 128 :=
  ⟨rfl, ⟨_, rfl, rfl⟩, _, rfl, _, rfl, by simp [unaryOps]; rfl⟩

end TypedVariant

end GengoDB
