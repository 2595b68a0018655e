/-
Typed variants against bare ones. `Represents` says that the word of a variant
is the payload of a typed one: the value, or the address of the string, node
or edge in memory. An operation on typed variants that is not confused gives
what the operation of `GengoDB.Variant` gives on the words
(`cmp_of_represents`, `hash_of_represents`, `compareOrder_of_represents`), and
the variant the compiler makes of a node represents the typed one
(`represents_createNodeRef`).
-/
import GengoDB.Fallible
import GengoDB.VariantPayload

namespace GengoDB

open Fallible

/-! ## Decoding -/

namespace Decoded

variable {α β : Type} {x : Decoded α} {f : α → Decoded β} {side : Side}

theorem read_eq_ok {o : Option α} {a : α} : Decoded.read side o = .ok a ↔ o = some a := by
  cases o <;> simp [Decoded.read]

/-- Go through a test on both sides. -/
theorem ite_eq_of_ok {c : Prop} [Decidable c] {y : Decoded α} {u w r : α} (h : (if c then x else y) = .ok r)
    (hx : c → x = .ok r → u = r) (hy : ¬ c → y = .ok r → w = r) : (if c then u else w) = r := by
  split at h
  · next hc => rw [if_pos hc, hx hc h]
  · next hc => rw [if_neg hc, hy hc h]

theorem eq_of_ok {a b : α} (h : (.ok a : Decoded α) = .ok b) : a = b := by
  cases h
  rfl

end Decoded

open Decoded

/-! ## Bare payloads -/

/-- The word of `v` is the payload of `t`. -/
structure Represents (M : Memory) (H : Heap) (v : Variant) (t : TypedVariant) : Prop where
  tag : v.tag = t.tag
  inline : ∀ bits, t.payload.inline? = some bits → v.ref = bits
  text : ∀ s, t.payload.text? = some s → s = some (M.varLen v.ref)
  scalar : ∀ raw, t.payload.scalar? = some raw → M.varLen v.ref = raw
  node : ∀ ref, t.payload.node? = some ref → M.node v.ref = H.view ref
  edge : ∀ address, t.payload.edge? = some address → v.ref = address

namespace Represents

variable {Lit : Type} {R : Rdf4cpp Lit} {M : Memory} {H : Heap} {v a b : Variant} {t ta tb : TypedVariant} {side : Side}

theorem getLiteralFromNumeric {l : Option Lit} (h : Represents M H v t) (hr : t.getLiteralFromNumeric R side = .ok l) :
    GengoDB.getLiteralFromNumeric R v.ref v.tag = l := by
  unfold TypedVariant.getLiteralFromNumeric at hr
  unfold GengoDB.getLiteralFromNumeric
  rw [h.tag]
  cases hdt : t.tag.fromInt32 with
  | none =>
    rw [hdt] at hr
    cases hr
    rfl
  | some d =>
    simp only [hdt] at hr ⊢
    split at hr
    · next hnum =>
      obtain ⟨bits, hbits, rfl⟩ := map_eq_ok.1 hr
      rw [if_pos hnum, h.inline bits (read_eq_ok.1 hbits)]
    · next hnum =>
      cases hr
      rw [if_neg hnum]

/-- A tag without a type of values, and one with. -/
theorem fromInt32_cases (tag : XsdType) :
    (tag.fromInt32 = none ∨ tag.fromInt32 = some .unspecified) ∨ ∃ d, d ≠ .unspecified ∧ tag.fromInt32 = some d := by
  cases htag : tag.fromInt32 with
  | none => exact .inl (.inl rfl)
  | some d =>
    by_cases hd : d = .unspecified
    · exact .inl (.inr (by rw [hd]))
    · exact .inr ⟨d, hd, rfl⟩

theorem typedLiteral_known {d : XsdType} (hne : d ≠ .unspecified) (hd : t.tag.fromInt32 = some d) :
    t.reconstructLiteral R H side =
      if d.isByteString then (t.readText side).map fun s => some (R.makeTyped (s.getD []) (.xsd d))
      else if d = .anyLiteralScalar then (t.readScalar side).map fun raw => some (TypedVariant.scalarLiteral R raw)
      else if d.classifyStorage.1 = .blob then (t.readNode side).map fun ref => TypedVariant.blobLiteral R (H.view ref)
      else t.getLiteralFromNumeric R side := by
  unfold TypedVariant.reconstructLiteral
  split <;> simp_all

theorem bareLiteral_known {d : XsdType} {payload : BitVec 64} {tag : XsdType} (hne : d ≠ .unspecified)
    (hd : tag.fromInt32 = some d) :
    GengoDB.reconstructLiteral R M payload tag =
      if d.isByteString then some (R.makeTyped (M.varLen payload) (.xsd d))
      else if d = .anyLiteralScalar then some (reconstructScalarLiteral R M payload)
      else if d.classifyStorage.1 = .blob then reconstructBlobLiteral R M payload
      else GengoDB.getLiteralFromNumeric R payload tag := by
  unfold GengoDB.reconstructLiteral
  split <;> simp_all

theorem reconstructLiteral {l : Option Lit} (h : Represents M H v t) (hr : t.reconstructLiteral R H side = .ok l) :
    GengoDB.reconstructLiteral R M v.ref v.tag = l := by
  rcases fromInt32_cases t.tag with hun | ⟨d, hne, hd⟩
  · unfold TypedVariant.reconstructLiteral at hr
    unfold GengoDB.reconstructLiteral
    rw [h.tag]
    rcases hun with hun | hun <;> (rw [hun] at hr ⊢; exact eq_of_ok hr)
  · have hnumeric : t.getLiteralFromNumeric R side = .ok l → GengoDB.getLiteralFromNumeric R v.ref v.tag = l :=
      h.getLiteralFromNumeric
    rw [typedLiteral_known hne hd] at hr
    rw [h.tag] at hnumeric ⊢
    rw [bareLiteral_known hne hd]
    refine ite_eq_of_ok hr (fun _ hr => ?_) fun _ hr => ite_eq_of_ok hr (fun _ hr => ?_) fun _ hr =>
      ite_eq_of_ok hr (fun _ hr => ?_) fun _ hr => hnumeric hr
    · obtain ⟨s, hs, rfl⟩ := map_eq_ok.1 hr
      rw [h.text s (read_eq_ok.1 hs)]
      rfl
    · obtain ⟨raw, hraw, rfl⟩ := map_eq_ok.1 hr
      rw [← h.scalar raw (read_eq_ok.1 hraw)]
      rfl
    · obtain ⟨ref, href, rfl⟩ := map_eq_ok.1 hr
      rw [← h.node ref (read_eq_ok.1 href)]
      rfl

theorem compareNumericCross {p : CmpPredicate} {c : Option Bool} (ha : Represents M H a ta) (hb : Represents M H b tb)
    (hr : TypedVariant.compareNumericCross R p ta tb = .ok c) :
    GengoDB.compareNumericCross R p a.ref b.ref a.tag b.tag = c := by
  obtain ⟨l, hl, hr⟩ := bind_eq_ok.1 hr
  obtain ⟨r, hr', hc⟩ := bind_eq_ok.1 hr
  cases hc
  rw [GengoDB.compareNumericCross, ha.getLiteralFromNumeric hl, hb.getLiteralFromNumeric hr']
  rfl

theorem compareBlobLiteral {p : CmpPredicate} {c : Option Bool} (ha : Represents M H a ta) (hb : Represents M H b tb)
    (hr : TypedVariant.compareBlobLiteral R H p ta tb = .ok c) :
    GengoDB.compareBlobLiteral R M p a.ref b.ref a.tag b.tag = c := by
  obtain ⟨l, hl, hr⟩ := bind_eq_ok.1 hr
  obtain ⟨r, hr', hc⟩ := bind_eq_ok.1 hr
  cases hc
  rw [GengoDB.compareBlobLiteral, ha.reconstructLiteral hl, hb.reconstructLiteral hr', ha.tag, hb.tag]
  rfl

theorem compareText {p : CmpPredicate} {c : Option Bool} (ha : Represents M H a ta) (hb : Represents M H b tb)
    (hr : TypedVariant.compareText p ta tb = .ok c) : some (applyStringCmp p (M.varLen a.ref) (M.varLen b.ref)) = c := by
  obtain ⟨l, hl, hr⟩ := bind_eq_ok.1 hr
  obtain ⟨r, hr', hc⟩ := bind_eq_ok.1 hr
  cases hc
  rw [ha.text l (read_eq_ok.1 hl), hb.text r (read_eq_ok.1 hr')]
  rfl

theorem sameTagSlow {p : CmpPredicate} {c : Option Bool} (ha : Represents M H a ta) (hb : Represents M H b tb)
    (htag : ta.tag = tb.tag) (hr : TypedVariant.sameTagSlow R H p ta tb = .ok c) :
    GengoDB.sameTagSlow R M p a.tag a.ref b.ref = c := by
  have hab : b.tag = a.tag := by rw [ha.tag, hb.tag, htag]
  unfold TypedVariant.sameTagSlow at hr
  rw [← ha.tag] at hr
  refine ite_eq_of_ok hr (fun _ hr => ?_) fun _ hr => ite_eq_of_ok hr (fun _ hr => ?_) fun _ hr =>
    ite_eq_of_ok hr (fun _ hr => ?_) fun _ hr => ite_eq_of_ok hr (fun _ hr => ?_) fun _ hr =>
    ite_eq_of_ok hr (fun _ hr => ?_) fun _ hr => ite_eq_of_ok hr (fun _ hr => eq_of_ok hr) fun _ hr => ?_
  · rw [← ha.compareNumericCross hb hr, hab]
  · exact ha.compareText hb hr
  · obtain ⟨l, hl, hr⟩ := bind_eq_ok.1 hr
    obtain ⟨r, hr', hc⟩ := bind_eq_ok.1 hr
    rw [compareNodeRefRef, ha.node l (read_eq_ok.1 hl), hb.node r (read_eq_ok.1 hr')]
    exact eq_of_ok hc
  · obtain ⟨l, hl, hr⟩ := bind_eq_ok.1 hr
    obtain ⟨r, hr', hc⟩ := bind_eq_ok.1 hr
    rw [ha.edge l (read_eq_ok.1 hl), hb.edge r (read_eq_ok.1 hr')]
    exact eq_of_ok hc
  · exact ha.compareText hb hr
  · rw [← ha.compareBlobLiteral hb hr, hab]

theorem crossTag {p : CmpPredicate} {c : Option Bool} (ha : Represents M H a ta) (hb : Represents M H b tb)
    (hr : TypedVariant.crossTag R H p ta tb = .ok c) : GengoDB.crossTag R M p a b = c := by
  unfold TypedVariant.crossTag at hr
  rw [← ha.tag, ← hb.tag] at hr
  refine ite_eq_of_ok hr (fun _ hr => eq_of_ok hr) fun _ hr => ite_eq_of_ok hr (fun _ hr => ?_) fun _ hr =>
    ite_eq_of_ok hr (fun _ hr => ?_) fun _ hr => ite_eq_of_ok hr (fun _ hr => ?_) fun _ hr =>
    ite_eq_of_ok hr (fun _ hr => ?_) fun _ hr => ite_eq_of_ok hr (fun _ hr => ?_) fun _ hr => eq_of_ok hr
  · exact ha.compareNumericCross hb hr
  · exact ha.compareBlobLiteral hb hr
  · obtain ⟨iri, hiri, hr⟩ := bind_eq_ok.1 hr
    obtain ⟨ref, href, hc⟩ := bind_eq_ok.1 hr
    rw [ha.text iri (read_eq_ok.1 hiri), ← hb.node ref (read_eq_ok.1 href)] at hc
    exact eq_of_ok hc
  · obtain ⟨iri, hiri, hr⟩ := bind_eq_ok.1 hr
    obtain ⟨ref, href, hc⟩ := bind_eq_ok.1 hr
    rw [hb.text iri (read_eq_ok.1 hiri), ← ha.node ref (read_eq_ok.1 href)] at hc
    exact eq_of_ok hc
  · exact ha.compareBlobLiteral hb hr

end Represents

section

variable {Lit : Type} {R : Rdf4cpp Lit} {M : Memory} {H : Heap} {v a b : Variant} {t ta tb : TypedVariant}

theorem fastCase_isSome (p : CmpPredicate) (tag : XsdType) (l r : BitVec 64) :
    (fastCase p tag l r).isSome = TypedVariant.hasFastCase tag := by
  unfold fastCase TypedVariant.hasFastCase
  by_cases h : tag = .boolean
  · simp [h]
  · rw [if_neg h, beq_false_of_ne h, Bool.false_or, Option.isSome_map, List.isSome_find?]

/-- A comparison that is not confused is that of the bare payloads. -/
theorem cmp_of_represents {p : CmpPredicate} {c : Option Bool} (ha : Represents M H a ta) (hb : Represents M H b tb)
    (hr : TypedVariant.cmp R H p ta tb = .ok c) : cmp R M p a b = c := by
  unfold TypedVariant.cmp at hr
  have htag : ta.tag = tb.tag ↔ a.tag = b.tag := by rw [ha.tag, hb.tag]
  unfold cmp
  by_cases hsame : ta.tag = tb.tag
  · rw [if_pos hsame] at hr
    rw [if_pos (htag.1 hsame)]
    have hsome := fastCase_isSome p a.tag a.ref b.ref
    rw [ha.tag] at hsome
    split at hr
    · next hfast =>
      obtain ⟨l, hl, hr⟩ := bind_eq_ok.1 hr
      obtain ⟨r, hr', hc⟩ := bind_eq_ok.1 hr
      rw [hfast, Option.isSome_iff_exists] at hsome
      obtain ⟨d, hd⟩ := hsome
      have hval : fastCase p ta.tag a.ref b.ref = c := by
        rw [ha.inline l (read_eq_ok.1 hl), hb.inline r (read_eq_ok.1 hr')]
        exact eq_of_ok hc
      rw [ha.tag, hd]
      exact hd.symm.trans hval
    · next hslow =>
      have hnone : fastCase p ta.tag a.ref b.ref = none := by
        rw [← Option.not_isSome_iff_eq_none, hsome]
        exact hslow
      rw [ha.tag, hnone, ← ha.tag]
      exact ha.sameTagSlow hb hsame hr
  · rw [if_neg hsame] at hr
    rw [if_neg fun h => hsame (htag.2 h)]
    exact ha.crossTag hb hr

/-- The bare hash is that of the typed variant, where it is defined. -/
theorem hash_of_represents {hashVarLenData : Bytes → BitVec 64} {total : Option (BitVec 64)} {c : BitVec 64}
    (h : Represents M H v t) (htag : ¬ (v.tag = .anyIRI ∨ v.tag = .edge ∨ v.tag = .anyLiteralScalar))
    (hr : TypedVariant.hash R H hashVarLenData total t = .ok c) : hash R M hashVarLenData total v = some c := by
  unfold TypedVariant.hash at hr
  unfold hash hashImpl
  rw [← h.tag] at hr
  split at hr
  · next hnumeric =>
    obtain ⟨bits, hbits, hc⟩ := bind_eq_ok.1 hr
    rw [if_pos hnumeric, h.inline bits (read_eq_ok.1 hbits), ← eq_of_ok hc]
  · next hnumeric =>
    rw [if_neg hnumeric]
    split at hr
    · next hstring =>
      obtain ⟨s, hs, hc⟩ := bind_eq_ok.1 hr
      rw [if_pos hstring, ← h.text s (read_eq_ok.1 hs), ← eq_of_ok hc]
    · next hstring =>
      rw [if_neg hstring]
      split at hr
      · next hnode =>
        obtain ⟨ref, href, hc⟩ := bind_eq_ok.1 hr
        rw [if_pos hnode, h.node ref (read_eq_ok.1 href), ← eq_of_ok hc]
      · next hnode =>
        rw [if_neg hnode]
        split at hr
        · next hnothing => rw [if_pos hnothing, ← eq_of_ok hr]
        · next hnothing =>
          obtain ⟨ref, href, hc⟩ := bind_eq_ok.1 hr
          rw [← h.node ref (read_eq_ok.1 href)] at hc
          rw [if_neg hnothing, if_neg htag, ← eq_of_ok hc]
          rfl

theorem Represents.rankOf {side : Side} {n : Nat} (h : Represents M H v t) (hr : t.rankOf H side = .ok n) :
    GengoDB.rankOf M v = n := by
  unfold TypedVariant.rankOf at hr
  rw [← h.tag] at hr
  refine ite_eq_of_ok hr (fun _ hr => eq_of_ok hr) fun _ hr => ?_
  obtain ⟨ref, href, hc⟩ := bind_eq_ok.1 hr
  rw [h.node ref (read_eq_ok.1 href)]
  exact eq_of_ok hc

theorem compareOrder_of_represents {c : Int} (ha : Represents M H a ta) (hb : Represents M H b tb)
    (hr : TypedVariant.compareOrder R H ta tb = .ok c) : compareOrder R M a b = c := by
  unfold TypedVariant.compareOrder at hr
  rw [← ha.tag, ← hb.tag] at hr
  refine ite_eq_of_ok hr (fun _ hr => ite_eq_of_ok hr (fun _ hr => eq_of_ok hr) fun _ hr => ?_) fun _ hr => ?_
  · obtain ⟨l, hl, hr⟩ := bind_eq_ok.1 hr
    obtain ⟨r, hr', hc⟩ := bind_eq_ok.1 hr
    rw [ha.edge l (read_eq_ok.1 hl), hb.edge r (read_eq_ok.1 hr')]
    exact eq_of_ok hc
  · obtain ⟨m, hm, hr⟩ := bind_eq_ok.1 hr
    obtain ⟨n, hn, hr⟩ := bind_eq_ok.1 hr
    rw [ha.rankOf hm, hb.rankOf hn]
    refine ite_eq_of_ok hr (fun _ hr => eq_of_ok hr) fun _ hr => ite_eq_of_ok hr (fun _ hr => ?_) fun _ hr => ?_
    · obtain ⟨l, hl, hr⟩ := bind_eq_ok.1 hr
      obtain ⟨r, hr', hc⟩ := bind_eq_ok.1 hr
      rw [ha.node l (read_eq_ok.1 hl), hb.node r (read_eq_ok.1 hr')]
      exact eq_of_ok hc
    · obtain ⟨l, hl, hr⟩ := bind_eq_ok.1 hr
      obtain ⟨r, hr', hc⟩ := bind_eq_ok.1 hr
      rw [ha.reconstructLiteral hl, hb.reconstructLiteral hr']
      exact eq_of_ok hc

/-- A node as a variant, with the text of a literal in its slot. -/
theorem represents_createNodeRef {word scratch slot : BitVec 64} {ref : NodeRef} (hview : M.node word = H.view ref)
    (hslot : M.varLen slot = (H.view ref).lex) :
    Represents M H (createNodeRef M word scratch slot) (TypedVariant.createNodeRef H ref scratch) := by
  have htag : resolveRefTag M word = (H.view ref).tag := by
    unfold resolveRefTag NodeView.tag
    rw [hview]
  have hextract (tag : XsdType) : extractNumericLiteral M word tag scratch =
      (H.view ref).extractNumericLiteral tag scratch :=
    congrArg (NodeView.extractNumericLiteral · tag scratch) hview
  constructor <;> simp only [createNodeRef, TypedVariant.createNodeRef, htag, hextract]
  all_goals
    split
    · simp
    · split
      · simp [hview]
      · split <;> simp [hview, hslot]

end

end GengoDB
