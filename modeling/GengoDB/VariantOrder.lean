/-
`compareOrder` as an order. What it looks at in a variant is the variant's
place: an edge's payload, the name of a blank node or of an IRI node, or the
literal, if there is one. Over the places it compares kinds first and
contents second, so it would be a preorder but for one thing: a variant that
is neither a node nor an edge and has no literal (an unspecified one, or an
IRI scalar) is equal to every literal.
-/
import Mathlib.Order.Compare
import GengoDB.Variant

namespace GengoDB

variable {Lit : Type*} (R : Rdf4cpp Lit) (M : Memory)

namespace VariantOrder

/-- What `compareOrder` looks at. -/
inductive Place (Lit : Type*) where
  | blank (name : Bytes)
  | iri (name : Bytes)
  | other (lit : Option Lit)
  | edge (payload : Int)

def Place.rank : Place Lit → Nat
  | .blank _ => 0
  | .iri _ => 1
  | .other _ => 2
  | .edge _ => 3

def place (v : Variant) : Place Lit :=
  if v.tag = .edge then .edge v.ref.toInt
  else if v.tag ≠ .node then .other (reconstructLiteral R M v.ref v.tag)
  else if (M.node v.ref).nodeType = .bnode then .blank (M.node v.ref).nodeName
  else .iri (M.node v.ref).nodeName

variable (order : Lit → Lit → Ordering)

/-- Literals by rdf4cpp's order; without a literal everything is equal. -/
def compareLiterals : Option Lit → Option Lit → Ordering
  | some l, some r => order l r
  | _, _ => .eq

def Place.compare : Place Lit → Place Lit → Ordering
  | .blank n, .blank m => compareBytes n m
  | .iri n, .iri m => compareBytes n m
  | .other l, .other r => compareLiterals order l r
  | .edge x, .edge y => Ord.compare x y
  | p, q => if p.rank < q.rank then .lt else .gt

/-- The result of `compareOrder`. -/
def toInt8 : Ordering → Int
  | .lt => -1
  | .eq => 0
  | .gt => 1

theorem toInt8_le_zero (o : Ordering) : toInt8 o ≤ 0 ↔ o.isLE := by
  cases o <;> simp [toInt8]

/-- Names: not equal, then less. -/
theorem ite_name_eq_toInt8 (x y : Bytes) :
    (if x ≠ y then if x < y then (-1 : Int) else 1 else 0) = toInt8 (compareBytes x y) := by
  unfold compareBytes compareOfLessAndEq
  by_cases h : x < y
  · simp [h, h.ne, toInt8]
  · by_cases h' : x = y <;> simp [h, h', toInt8]

/-- The edge branch: equal payloads, or the signed comparison. -/
theorem ite_slt_eq_toInt8 (x y : BitVec 64) :
    (if x = y then 0 else if x.slt y then (-1 : Int) else 1) = toInt8 (compare x.toInt y.toInt) := by
  rcases Int.lt_trichotomy x.toInt y.toInt with h | h | h
  · have hne : x ≠ y := fun e => by simp [e] at h
    simp [BitVec.slt_iff_toInt_lt, h, hne, Int.compare_eq_lt.2 h, toInt8]
  · simp [BitVec.toInt_inj.1 h, toInt8]
  · have hne : x ≠ y := fun e => by simp [e] at h
    have hlt : ¬ x.toInt < y.toInt := by omega
    simp [BitVec.slt_iff_toInt_lt, hlt, hne, Int.compare_eq_gt.2 h, toInt8]

/-- The four kinds of variants and their ranks. -/
theorem place_cases (v : Variant) : (v.tag = .edge ∧ place R M v = .edge v.ref.toInt) ∨
    (v.tag ≠ .edge ∧ rankOf M v = 2 ∧ place R M v = .other (reconstructLiteral R M v.ref v.tag)) ∨
    (v.tag ≠ .edge ∧ rankOf M v = 1 ∧ place R M v = .iri (M.node v.ref).nodeName) ∨
    (v.tag ≠ .edge ∧ rankOf M v = 0 ∧ place R M v = .blank (M.node v.ref).nodeName) := by
  unfold place rankOf
  by_cases he : v.tag = .edge
  · simp [he]
  · by_cases hn : v.tag = .node
    · by_cases hb : (M.node v.ref).nodeType = .bnode <;> simp [hn, hb]
    · simp [he, hn]

/-- `compareOrder` compares the places. -/
theorem compareOrder_eq (a b : Variant) :
    compareOrder R M a b = toInt8 ((place R M a).compare R.order (place R M b)) := by
  unfold compareOrder
  rcases place_cases R M a with ⟨ha, hp⟩ | ⟨ha, hr, hp⟩ | ⟨ha, hr, hp⟩ | ⟨ha, hr, hp⟩ <;>
    rcases place_cases R M b with ⟨hb, hq⟩ | ⟨hb, hs, hq⟩ | ⟨hb, hs, hq⟩ | ⟨hb, hs, hq⟩ <;>
    rw [hp, hq]
  case inl.inl => simpa [ha, hb, Place.compare] using ite_slt_eq_toInt8 a.ref b.ref
  case inr.inl.inr.inl =>
    simp only [ha, hb, hr, hs, Place.compare, compareLiterals]
    cases reconstructLiteral R M a.ref a.tag <;> cases reconstructLiteral R M b.ref b.tag <;> simp [toInt8]
    split <;> simp_all
  case inr.inr.inl.inr.inr.inl =>
    simpa [ha, hb, hr, hs, Place.compare] using ite_name_eq_toInt8 (M.node a.ref).nodeName (M.node b.ref).nodeName
  case inr.inr.inr.inr.inr.inr =>
    simpa [ha, hb, hr, hs, Place.compare] using ite_name_eq_toInt8 (M.node a.ref).nodeName (M.node b.ref).nodeName
  all_goals simp [*, Place.compare, Place.rank, toInt8]

/-! ## The order of the places -/

/-- A literal, something without a literal, and a smaller literal. -/
def Place.Gap : Place Lit → Place Lit → Place Lit → Prop
  | .other (some l), .other none, .other (some r) => order l r = .gt
  | _, _, _ => False

section Order

open Std Place

variable {order : Lit → Lit → Ordering} [TransCmp order] {p q : Place Lit}

theorem compareBytes_eq (l r : Bytes) : compareBytes l r = @compare Bytes LinearOrder.toOrd l r := by
  unfold compareBytes
  congr

theorem Place.compare_self (p : Place Lit) : p.compare order p = .eq := by
  rcases p with n | n | (_ | l) | x <;>
    simp [compare, compareLiterals, compareBytes_eq, ReflCmp.compare_self]

theorem Place.compare_swap (p q : Place Lit) : q.compare order p = (p.compare order q).swap := by
  rcases p with n | n | (_ | l) | x <;> rcases q with m | m | (_ | r) | y <;>
    simp only [compare, compareLiterals, compareBytes_eq] <;>
    first | rfl | exact OrientedCmp.eq_swap

omit [TransCmp order] in
theorem Place.rank_le (h : (p.compare order q).isLE) : p.rank ≤ q.rank := by
  cases p <;> cases q <;> simp [compare, rank] at h ⊢

omit [TransCmp order] in
theorem Place.compare_of_rank_lt (h : p.rank < q.rank) : p.compare order q = .lt := by
  cases p <;> cases q <;> simp [compare, rank] at h ⊢

/-- Kinds first. Within a kind the contents are ordered, except that without
a literal in the middle nothing is known of the literals at the ends. -/
theorem Place.compare_trans {r : Place Lit} (hgap : ¬ Place.Gap order p q r) (hpq : (p.compare order q).isLE)
    (hqr : (q.compare order r).isLE) : (p.compare order r).isLE := by
  have h₁ := rank_le hpq
  have h₂ := rank_le hqr
  rcases Nat.lt_or_ge p.rank r.rank with hlt | hge
  · rw [compare_of_rank_lt hlt]
    rfl
  · have hq : q.rank = p.rank := by omega
    have hr : r.rank = p.rank := by omega
    cases p <;> cases q <;> simp [rank] at hq <;> cases r <;> simp [rank] at hr
    case blank.blank.blank n m k =>
      simp only [compare, compareBytes_eq] at hpq hqr ⊢
      exact TransCmp.isLE_trans hpq hqr
    case iri.iri.iri n m k =>
      simp only [compare, compareBytes_eq] at hpq hqr ⊢
      exact TransCmp.isLE_trans hpq hqr
    case edge.edge.edge x y z =>
      simp only [compare] at hpq hqr ⊢
      exact TransCmp.isLE_trans hpq hqr
    case other.other.other l m r =>
      rcases l with _ | l
      · rfl
      · rcases r with _ | r
        · rfl
        · rcases m with _ | m
          · simpa [compare, compareLiterals, Place.Gap, Ordering.isLE_iff_ne_gt] using hgap
          · simp only [compare, compareLiterals] at hpq hqr ⊢
            exact TransCmp.isLE_trans hpq hqr

omit [TransCmp order] in
theorem Place.compare_of_gap {r : Place Lit} (h : Place.Gap order p q r) :
    p.compare order q = .eq ∧ q.compare order r = .eq ∧ p.compare order r = .gt := by
  unfold Place.Gap at h
  split at h
  · exact ⟨rfl, rfl, h⟩
  · exact h.elim

end Order

end VariantOrder

open VariantOrder

/-- `b` is neither a node nor an edge and has no literal, and stands between
two literals in descending order. -/
def LiteralGap (a b c : Variant) : Prop :=
  b.tag ≠ .node ∧ b.tag ≠ .edge ∧ reconstructLiteral R M b.ref b.tag = none ∧
    ∃ l r, reconstructLiteral R M a.ref a.tag = some l ∧ reconstructLiteral R M c.ref c.tag = some r ∧
      R.order l r = .gt

theorem place_eq_other_some {v : Variant} {l : Lit} :
    place R M v = .other (some l) ↔ reconstructLiteral R M v.ref v.tag = some l := by
  unfold place
  by_cases he : v.tag = .edge
  · simp [he, reconstructLiteral, XsdType.fromInt32]
  · by_cases hn : v.tag = .node
    · simp only [hn, reconstructLiteral, XsdType.fromInt32]
      by_cases hb : (M.node v.ref).nodeType = .bnode <;> simp [hb]
    · simp [he, hn]

theorem place_eq_other_none {v : Variant} :
    place R M v = .other none ↔ v.tag ≠ .node ∧ v.tag ≠ .edge ∧ reconstructLiteral R M v.ref v.tag = none := by
  unfold place
  by_cases he : v.tag = .edge
  · simp [he]
  · by_cases hn : v.tag = .node
    · by_cases hb : (M.node v.ref).nodeType = .bnode <;> simp [hn, hb]
    · simp [he, hn]

theorem literalGap_iff (a b c : Variant) :
    LiteralGap R M a b c ↔ Place.Gap R.order (place R M a) (place R M b) (place R M c) := by
  constructor
  · rintro ⟨hn, he, hb, l, r, ha, hc, ho⟩
    rw [(place_eq_other_some R M).2 ha, (place_eq_other_none R M).2 ⟨hn, he, hb⟩, (place_eq_other_some R M).2 hc]
    exact ho
  · intro h
    unfold Place.Gap at h
    split at h
    · next l r ha hb hc =>
      obtain ⟨hn, he, hb⟩ := (place_eq_other_none R M).1 hb
      exact ⟨hn, he, hb, l, r, (place_eq_other_some R M).1 ha, (place_eq_other_some R M).1 hc, h⟩
    · exact h.elim

/-- **`compareOrder` is a total preorder, gaps apart.** -/
theorem compareOrder_preorder_iff [Std.TransCmp R.order] (a b c : Variant) :
    ((compareOrder R M a b).sign = -(compareOrder R M b a).sign ∧ compareOrder R M a a = 0 ∧
      (compareOrder R M a b ≤ 0 → compareOrder R M b c ≤ 0 → compareOrder R M a c ≤ 0)) ↔ ¬ LiteralGap R M a b c := by
  simp only [compareOrder_eq, literalGap_iff, toInt8_le_zero]
  constructor
  · rintro ⟨-, -, htrans⟩ hgap
    obtain ⟨hab, hbc, hac⟩ := Place.compare_of_gap hgap
    have := htrans (by rw [hab]; rfl) (by rw [hbc]; rfl)
    rw [hac] at this
    cases this
  · intro hgap
    refine ⟨?_, ?_, Place.compare_trans hgap⟩
    · rw [Place.compare_swap (place R M a) (place R M b)]
      cases (place R M a).compare R.order (place R M b) <;> rfl
    · rw [Place.compare_self]
      rfl

instance : Std.TransCmp exactLits.order :=
  inferInstanceAs (Std.TransCmp (compareLex _ _))

/-- On `1`, `2` and an unspecified variant it is one. -/
theorem compareOrder_preorder_one_two :
    let one := Variant.createScalar .long (1 : BitVec 64) (by decide)
    let two := Variant.createScalar .long (2 : BitVec 64) (by decide)
    let none := Variant.createScalar .unspecified (0 : BitVec 64) (by decide)
    compareOrder exactLits (bareMemory []) one two ≤ 0 → compareOrder exactLits (bareMemory []) two none ≤ 0 →
      compareOrder exactLits (bareMemory []) one none ≤ 0 := by
  intro one two none
  refine ((compareOrder_preorder_iff exactLits (bareMemory []) one two none).2 ?_).2.2
  rintro ⟨-, -, h, -⟩
  exact absurd h (by decide)

/-- An unspecified variant is equal to `2` and to `1`, but `2` comes after `1`. -/
theorem compareOrder_unspecified_gap :
    let one := Variant.createScalar .long (1 : BitVec 64) (by decide)
    let two := Variant.createScalar .long (2 : BitVec 64) (by decide)
    let none := Variant.createScalar .unspecified (0 : BitVec 64) (by decide)
    compareOrder exactLits (bareMemory []) two none ≤ 0 ∧ compareOrder exactLits (bareMemory []) none one ≤ 0 ∧
      ¬ compareOrder exactLits (bareMemory []) two one ≤ 0 := by
  decide +kernel

end GengoDB
