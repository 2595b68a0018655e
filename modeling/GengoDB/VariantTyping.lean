/-
How payloads are read. Every constructor stores what the tag stands for
(`Constructible.matches_or`), except that a literal of a graph whose datatype
is `xsd:anyLiteralScalar` gets the tag of the scalars and the payload of a
node. The operations read what the tag stands for too, except `db.hash`: it
takes the payload of an edge, of an IRI of the query and of a scalar for a
node. The other tags are read right by all of them (`decodes_iff`).
-/
import GengoDB.Fallible
import GengoDB.VariantPayload

namespace GengoDB

open Fallible TypedVariant

/-! ## Confusions -/

namespace Decoded

variable {α β : Type} {x : Decoded α} {f : α → Decoded β} {side : Side}

/-- No confusion is about the payload of `side`. -/
def Spares (side : Side) (x : Decoded α) : Prop := ∀ e, x = .error e → e.side ≠ side

theorem spares_ok (a : α) : Spares side (.ok a : Decoded α) := fun _ h => nomatch h

theorem Spares.bind (hx : Spares side x) (hf : ∀ a, x = .ok a → Spares side (f a)) : Spares side (x >>= f) := by
  cases x with
  | ok a => exact hf a rfl
  | error e =>
    intro e' he
    cases he
    exact hx e rfl

theorem Spares.ok {g : α → β} (hx : Spares side x) : Spares side (x >>= fun a => pure (g a)) :=
  hx.bind fun _ _ => spares_ok _

theorem Spares.both {γ : Type} {y : Decoded β} {g : α → β → γ} (hx : Spares side x) (hy : Spares side y) :
    Spares side (x >>= fun a => y >>= fun b => pure (g a b)) :=
  hx.bind fun _ _ => hy.ok

theorem spares_ite {c : Prop} [Decidable c] {y : Decoded α} (hx : c → Spares side x) (hy : ¬ c → Spares side y) :
    Spares side (if c then x else y) := by
  split
  · next h => exact hx h
  · next h => exact hy h

theorem Spares.map {g : α → β} (hx : Spares side x) : Spares side (x.map g) := by
  cases x with
  | ok a => exact spares_ok _
  | error e =>
    intro e' he
    cases he
    exact hx e rfl

/-- Reading the other operand, or what is there. -/
theorem spares_read {reader : Side} {o : Option α} (h : reader = side → o.isSome) :
    Spares side (Decoded.read reader o) := by
  intro e he
  cases o with
  | some a => cases he
  | none =>
    cases he
    exact fun hs => nomatch h hs

end Decoded

open Decoded

/-! ## What tags stand for -/

inductive PayloadKind where
  | inline | text | scalar | node | edge | nothing
  deriving DecidableEq

/-- What the payload of a tag is. -/
def XsdType.payloadKind (t : XsdType) : PayloadKind :=
  if t.isNumericFamily then .inline
  else if t.isByteString ∨ t = anyIRI then .text
  else if t = anyLiteralScalar then .scalar
  else if t = edge then .edge
  else if t = unspecified then .nothing
  else .node

def Payload.kind : Payload → PayloadKind
  | inline _ => .inline
  | text _ => .text
  | scalar _ => .scalar
  | node _ => .node
  | edge _ => .edge
  | invalid => .nothing

variable {t : XsdType}

namespace XsdType

theorem fromInt32_eq_some {d : XsdType} (h : t.fromInt32 = some d) : d = t := by
  cases t <;> cases h <;> rfl

/-- What `reconstructLiteral` takes for a node has a tag of nodes. -/
theorem payloadKind_of_blob (hint : t.fromInt32 = some t) (hun : t ≠ unspecified)
    (hbytes : ¬ t.isByteString) (hscalar : t ≠ anyLiteralScalar) (hblob : t.classifyStorage.1 = .blob) :
    t.payloadKind = .node := by
  revert hint hun hbytes hscalar hblob
  cases t <;> decide

end XsdType

namespace TypedVariant

/-- The payload is what the tag stands for. -/
def Matches (v : TypedVariant) : Prop := v.tag.payloadKind = .nothing ∨ v.payload.kind = v.tag.payloadKind

instance (v : TypedVariant) : Decidable v.Matches := inferInstanceAs (Decidable (_ ∨ _))

namespace Matches

variable {v : TypedVariant}

theorem kind_eq {k : PayloadKind} (h : v.Matches) (hk : v.tag.payloadKind = k) (hne : k ≠ .nothing) :
    v.payload.kind = k := by
  rcases h with h | h
  · exact absurd (hk.symm.trans h) hne
  · exact h.trans hk

theorem inline (h : v.Matches) (ht : v.tag.isNumericFamily) : v.payload.inline?.isSome := by
  have hkind := h.kind_eq (if_pos ht) nofun
  revert hkind
  cases v.payload <;> simp [Payload.kind]

theorem text (h : v.Matches) (ht : v.tag.isByteString ∨ v.tag = .anyIRI) : v.payload.text?.isSome := by
  have htag : v.tag.payloadKind = .text := by
    revert ht
    cases v.tag <;> decide
  have hkind := h.kind_eq htag nofun
  revert hkind
  cases v.payload <;> simp [Payload.kind]

theorem scalar (h : v.Matches) (ht : v.tag = .anyLiteralScalar) : v.payload.scalar?.isSome := by
  have hkind := h.kind_eq (by rw [ht]; rfl) (k := .scalar) nofun
  revert hkind
  cases v.payload <;> simp [Payload.kind]

theorem node (h : v.Matches) (ht : v.tag.payloadKind = .node) : v.payload.node?.isSome := by
  have hkind := h.kind_eq ht nofun
  revert hkind
  cases v.payload <;> simp [Payload.kind]

theorem edge (h : v.Matches) (ht : v.tag = .edge) : v.payload.edge?.isSome := by
  have hkind := h.kind_eq (by rw [ht]; rfl) (k := .edge) nofun
  revert hkind
  cases v.payload <;> simp [Payload.kind]

end Matches

variable {Lit : Type} {R : Rdf4cpp Lit} {H : Heap} {a b v : TypedVariant} {side reader : Side} {p : CmpPredicate}

theorem spares_getLiteralFromNumeric (hv : reader = side → v.Matches) :
    Spares side (v.getLiteralFromNumeric R reader) := by
  unfold getLiteralFromNumeric
  split
  · exact spares_ok _
  · next t ht =>
    cases XsdType.fromInt32_eq_some ht
    exact spares_ite (fun hnum => (spares_read fun hs => (hv hs).inline hnum).map) fun _ => spares_ok _

theorem spares_reconstructLiteral (hv : reader = side → v.Matches) : Spares side (v.reconstructLiteral R H reader) := by
  unfold reconstructLiteral
  split
  · exact spares_ok _
  · exact spares_ok _
  · next t hne ht =>
    cases XsdType.fromInt32_eq_some ht
    refine spares_ite (fun hbytes => (spares_read fun hs => (hv hs).text (.inl hbytes)).map) fun hbytes =>
      spares_ite (fun hscalar => (spares_read fun hs => (hv hs).scalar hscalar).map) fun hscalar =>
      spares_ite (fun hblob => (spares_read fun hs => (hv hs).node ?_).map) fun _ => spares_getLiteralFromNumeric hv
    exact XsdType.payloadKind_of_blob ht hne hbytes hscalar hblob

theorem isNumericFamily_of_fast {tag : XsdType} (h : hasFastCase tag) : tag.isNumericFamily := by
  revert h
  cases tag <;> decide

theorem spares_rankOf (hv : reader = side → v.Matches) : Spares side (v.rankOf H reader) :=
  spares_ite (fun _ => spares_ok _) fun h =>
    (spares_read fun hs => (hv hs).node (by rw [not_not.1 h]; rfl)).ok

theorem tag_of_rankOf {n : Nat} (h : v.rankOf H reader = .ok n) (hn : n ≠ 2) : v.tag = .node := by
  by_contra hne
  rw [rankOf, if_pos hne] at h
  cases h
  exact hn rfl

section
variable (ha : .lhs = side → a.Matches) (hb : .rhs = side → b.Matches)
include ha hb

theorem spares_compareNumericCross : Spares side (compareNumericCross R p a b) :=
  (spares_getLiteralFromNumeric ha).both (spares_getLiteralFromNumeric hb)

theorem spares_compareBlobLiteral : Spares side (compareBlobLiteral R H p a b) :=
  (spares_reconstructLiteral ha).both (spares_reconstructLiteral hb)

theorem spares_compareText (htag : a.tag = b.tag)
    (htext : a.tag.isByteString ∨ a.tag = .anyIRI) : Spares side (compareText p a b) :=
  (spares_read fun hs => (ha hs).text htext).both
    (spares_read fun hs => (hb hs).text (htag ▸ htext))

theorem spares_sameTagSlow (htag : a.tag = b.tag) : Spares side (sameTagSlow R H p a b) := by
  refine spares_ite (fun _ => spares_compareNumericCross ha hb) fun _ =>
    spares_ite (fun h => spares_compareText ha hb htag (.inl (by rw [h]; rfl))) fun _ =>
    spares_ite (fun h => ?_) fun _ => spares_ite (fun h => ?_) fun _ =>
    spares_ite (fun h => spares_compareText ha hb htag (.inr h)) fun _ =>
    spares_ite (fun _ => spares_ok _) fun _ => spares_compareBlobLiteral ha hb
  · exact (spares_read fun hs => (ha hs).node (by rw [h]; rfl)).both
      (spares_read fun hs => (hb hs).node (by rw [← htag, h]; rfl))
  · exact (spares_read fun hs => (ha hs).edge h).both
      (spares_read fun hs => (hb hs).edge (htag ▸ h))

theorem spares_crossTag : Spares side (crossTag R H p a b) := by
  refine spares_ite (fun _ => spares_ok _) fun _ => spares_ite (fun _ => spares_compareNumericCross ha hb) fun _ =>
    spares_ite (fun _ => spares_compareBlobLiteral ha hb) fun _ => spares_ite (fun h => ?_) fun _ =>
    spares_ite (fun h => ?_) fun _ => spares_ite (fun _ => spares_compareBlobLiteral ha hb) fun _ => spares_ok _
  · simp only [Bool.and_eq_true, beq_iff_eq] at h
    exact (spares_read fun hs => (ha hs).text (.inr h.1)).both
      (spares_read fun hs => (hb hs).node (by rw [h.2]; rfl))
  · simp only [Bool.and_eq_true, beq_iff_eq] at h
    exact (spares_read fun hs => (hb hs).text (.inr h.2)).both
      (spares_read fun hs => (ha hs).node (by rw [h.1]; rfl))

theorem spares_cmp : Spares side (cmp R H p a b) := by
  refine spares_ite (fun htag => spares_ite (fun hfast => ?_) fun _ => spares_sameTagSlow ha hb htag) fun _ =>
    spares_crossTag ha hb
  have hnum := isNumericFamily_of_fast hfast
  exact (spares_read fun hs => (ha hs).inline hnum).both
    (spares_read fun hs => (hb hs).inline (htag ▸ hnum))

theorem spares_compareOrder : Spares side (compareOrder R H a b) := by
  refine spares_ite (fun hedge => spares_ite (fun _ => spares_ok _) fun hiff => ?_) fun _ =>
    (spares_rankOf ha).bind fun m hm => (spares_rankOf hb).bind fun n hn =>
      spares_ite (fun _ => spares_ok _) fun hmn => spares_ite (fun hm2 => ?_) fun _ =>
        (spares_reconstructLiteral ha).both (spares_reconstructLiteral hb)
  · rw [not_not] at hiff
    have hboth : a.tag = .edge ∧ b.tag = .edge := hedge.elim (fun h => ⟨h, hiff.1 h⟩) fun h => ⟨hiff.2 h, h⟩
    exact (spares_read fun hs => (ha hs).edge hboth.1).both
      (spares_read fun hs => (hb hs).edge hboth.2)
  · have htag := tag_of_rankOf hm hm2
    have htag' := tag_of_rankOf hn (not_not.1 hmn ▸ hm2)
    exact (spares_read fun hs => (ha hs).node (by rw [htag]; rfl)).both
      (spares_read fun hs => (hb hs).node (by rw [htag']; rfl))

end

/-- The last case of `computeLexicalForm`, and of `hash` but for the three
tags it forgets. -/
theorem payloadKind_of_ne (hun : t ≠ .unspecified) (hnum : ¬ t.isNumericFamily)
    (hedge : t ≠ .edge) (hbytes : ¬ t.isByteString) (hiri : t ≠ .anyIRI) (hscalar : t ≠ .anyLiteralScalar) :
    t.payloadKind = .node := by
  revert hun hnum hedge hbytes hiri hscalar
  cases t <;> decide

theorem spares_computeLexicalForm (hv : reader = side → v.Matches) : Spares side (v.computeLexicalForm R H reader) := by
  refine spares_ite (fun _ => spares_ok _) fun hun =>
    spares_ite (fun _ => (spares_getLiteralFromNumeric hv).ok) fun hnum =>
    spares_ite (fun h => (spares_read fun hs => (hv hs).node (by rw [h]; rfl)).ok) fun _ =>
    spares_ite (fun h => (spares_read fun hs => (hv hs).edge h).ok) fun hedge =>
    spares_ite (fun h => spares_read fun hs => (hv hs).text (.inl h)) fun hbytes =>
    spares_ite (fun h => spares_read fun hs => (hv hs).text (.inr h)) fun hiri =>
    spares_ite (fun h => (spares_read fun hs => (hv hs).scalar h).ok) fun hscalar =>
    (spares_read fun hs => (hv hs).node ?_).ok
  exact payloadKind_of_ne hun hnum hedge hbytes hiri hscalar

theorem spares_hash {hashVarLenData : Bytes → BitVec 64} {total : Option (BitVec 64)} (hv : v.Matches)
    (hedge : v.tag ≠ .edge) (hiri : v.tag ≠ .anyIRI) (hscalar : v.tag ≠ .anyLiteralScalar) :
    Spares side (v.hash R H hashVarLenData total) := by
  refine spares_ite (fun h => (spares_read fun _ => hv.inline h).ok) fun hnum =>
    spares_ite (fun h => (spares_read fun _ => hv.text (.inl h)).ok) fun hbytes =>
    spares_ite (fun h => (spares_read fun _ => hv.node (by rw [h]; rfl)).ok) fun _ =>
    spares_ite (fun _ => spares_ok _) fun hun => (spares_read fun _ => hv.node ?_).ok
  exact payloadKind_of_ne hun hnum hedge hbytes hiri hscalar

end TypedVariant

namespace TypedVariant

variable {Lit : Type} {R : Rdf4cppOps Lit} {H : Heap} {a b v : TypedVariant} {side : Side}
  {scratch : BitVec 64} {p : ArithPredicate}

theorem spares_computeFullForm (hv : .lhs = side → v.Matches) : Spares side (v.computeFullForm R H) :=
  spares_ite (fun _ => spares_ok _) fun _ =>
    spares_ite (fun h => (spares_read fun hs => (hv hs).node (by rw [h]; rfl)).ok) fun _ =>
    spares_ite (fun h => spares_read fun hs => (hv hs).text (.inr h)) fun _ =>
    spares_ite (fun h => (spares_read fun hs => (hv hs).edge h).ok) fun _ =>
    (spares_reconstructLiteral hv).ok

theorem spares_cast {target : XsdType} (hv : .lhs = side → v.Matches) : Spares side (v.cast R H scratch target) :=
  spares_ite (fun _ => spares_ok _) fun _ => (spares_reconstructLiteral hv).ok

theorem isNumericFamily_of_fixed : ∀ n ∈ XsdType.fixedNumericTags, n.type.isNumericFamily := by decide

section
variable (ha : .lhs = side → a.Matches) (hb : .rhs = side → b.Matches)
include ha hb

theorem spares_concat : Spares side (a.concat R H b) :=
  (spares_computeLexicalForm ha).both (spares_computeLexicalForm hb)

theorem spares_arithBlobNumeric : Spares side (arithBlobNumeric R H scratch p a b) :=
  (spares_reconstructLiteral ha).both (spares_reconstructLiteral hb)

theorem spares_arith : Spares side (arith R H scratch p a b) := by
  unfold arith
  split
  · next n hn =>
    refine spares_ite (fun htag => ?_) fun _ => spares_arithBlobNumeric ha hb
    have hfixed := List.find?_some hn
    simp only [decide_eq_true_eq] at hfixed
    have hnum := isNumericFamily_of_fixed n (List.mem_of_find?_eq_some hn)
    rw [hfixed.1] at hnum
    exact (spares_read fun hs => (ha hs).inline hnum).both
      (spares_read fun hs => (hb hs).inline (htag ▸ hnum))
  · exact spares_arithBlobNumeric ha hb

end

end TypedVariant

/-! ## Constructed variants -/

/-- No datatype has one of the resource tags. -/
theorem XsdType.fromIri_mem (iri : Bytes) : fromIri (some iri) ∈ names.map (·.2) := by
  have hnode : anyLiteralNode ∈ names.map (·.2) := by decide
  unfold fromIri
  dsimp only
  split
  · decide
  · split
    · exact hnode
    · split
      · exact hnode
      · unfold fromString
        cases hfind : names.find? fun e => ascii e.1 == iri.drop xsdNamespace.length with
        | none => exact hnode
        | some e => exact List.mem_map_of_mem (List.mem_of_find?_eq_some hfind)

theorem XsdType.ne_of_mem_names (h : t ∈ names.map (·.2)) : t ≠ node ∧ t ≠ anyIRI ∧ t ≠ edge := by
  revert h
  cases t <;> decide

/-- A node of a loaded graph: the type of its property is that of a
datatype. -/
def NodeView.Loadable (entry : NodeView) : Prop := 0 ≤ entry.payload → ∃ iri, entry.propType = .fromIri (some iri)

theorem NodeView.Loadable.tag_ne {entry : NodeView} (h : entry.Loadable) : entry.tag ≠ .anyIRI ∧ entry.tag ≠ .edge := by
  unfold NodeView.tag
  split
  · exact ⟨nofun, nofun⟩
  · next hnonneg =>
    obtain ⟨iri, hiri⟩ := h (Int.not_lt.1 hnonneg)
    rw [hiri]
    exact (XsdType.ne_of_mem_names (XsdType.fromIri_mem iri)).2

/-- The variants of a query over loaded graphs. -/
inductive Constructible {Lit : Type} (R : Rdf4cppOps Lit) (P : NumberParsers) (H : Heap) : TypedVariant → Prop where
  | literal {lit v} (h : translateLiteral P lit = some v) : Constructible R P H v
  | scalar {s v} (h : createScalar none s = some v) : Constructible R P H v
  | nodeRef {ref} (scratch) (h : (H.view ref).Loadable) : Constructible R P H (.createNodeRef H ref scratch)
  | edgeRef (address) : Constructible R P H (.createEdgeRef address)
  | unspecifiedIf {v} (cond) (hv : Constructible R P H v) : Constructible R P H (v.unspecifiedIf cond)
  | cast {v w scratch target} (hv : Constructible R P H v) (h : v.cast R H scratch target = .ok w) : Constructible R P H w
  | strCast {v w} (hv : Constructible R P H v) (h : v.strCast R H = .ok w) : Constructible R P H w
  | langCast {v w} (hv : Constructible R P H v) (h : v.langCast R H = .ok w) : Constructible R P H w
  | concat {a b w} (ha : Constructible R P H a) (hb : Constructible R P H b) (h : a.concat R H b = .ok w) :
    Constructible R P H w
  | arith {a b w scratch p} (ha : Constructible R P H a) (hb : Constructible R P H b)
    (h : TypedVariant.arith R H scratch p a b = .ok w) : Constructible R P H w

namespace TypedVariant

variable {Lit : Type} {R : Rdf4cppOps Lit} {H : Heap} {P : NumberParsers} {a b v w : TypedVariant} {scratch : BitVec 64}
  {p : ArithPredicate}

theorem matches_createScalar {s : Scalar} (h : createScalar none s = some v) : v.Matches := by
  cases s <;> cases h <;> exact .inr rfl

theorem matches_translateLiteral {lit : LiteralExpr} (h : translateLiteral P lit = some v) : v.Matches := by
  unfold translateLiteral at h
  split at h
  · obtain ⟨packed, -, h⟩ := Option.bind_eq_some_iff.1 h
    cases h
    exact .inr rfl
  · obtain ⟨s, hs, h⟩ := Option.bind_eq_some_iff.1 h
    by_cases hexplicit : lit.xsdType = .anyIRI ∨ lit.xsdType = .anyLiteralScalar
    · unfold literalScalar at hs
      rcases hexplicit with ht | ht <;> rw [ht] at hs h <;> cases hs <;> cases h <;> exact .inr rfl
    · rw [if_neg hexplicit] at h
      exact matches_createScalar h

/-- A node's payload is what its tag stands for but for one datatype. -/
theorem matches_createNodeRef {ref : NodeRef} (scratch : BitVec 64) (h : (H.view ref).Loadable) :
    (createNodeRef H ref scratch).Matches ∨ (createNodeRef H ref scratch).tag = .anyLiteralScalar ∧
      (createNodeRef H ref scratch).payload.kind = .node := by
  obtain ⟨hiri, hedge⟩ := h.tag_ne
  unfold createNodeRef Matches
  split
  · next hnum => exact .inl (.inr (if_pos hnum).symm)
  · next hnum =>
    split
    · next hnode =>
      rw [hnode]
      exact .inl (.inr rfl)
    · split
      · next hbytes =>
        left
        right
        rw [XsdType.payloadKind, if_neg hnum, if_pos (.inl hbytes)]
        rfl
      · next hbytes =>
        by_cases hscalar : (H.view ref).tag = .anyLiteralScalar
        · exact .inr ⟨hscalar, rfl⟩
        · left
          by_cases hun : (H.view ref).tag = .unspecified
          · rw [hun]
            exact .inl rfl
          · exact .inr (payloadKind_of_ne hun hnum hedge hbytes hiri hscalar).symm

theorem matches_ofNumericResult (scratch : BitVec 64) (lit : Lit) : (ofNumericResult R scratch lit).Matches := by
  unfold ofNumericResult
  dsimp only
  split
  · next hnum => exact .inr (if_pos hnum).symm
  · exact .inl rfl

theorem matches_arithBlobNumeric (h : arithBlobNumeric R H scratch p a b = .ok w) : w.Matches := by
  obtain ⟨l, -, h⟩ := bind_eq_ok.1 h
  obtain ⟨r, -, h⟩ := bind_eq_ok.1 h
  have hw := Except.ok.inj h
  subst hw
  split
  · split
    · exact .inl rfl
    · dsimp only
      split
      · next htag =>
        right
        rcases htag with htag | htag <;> rw [htag] <;> rfl
      · exact matches_ofNumericResult _ _
  · exact .inl rfl

theorem matches_arith (h : arith R H scratch p a b = .ok w) : w.Matches := by
  unfold arith at h
  split at h
  · next n hn =>
    split at h
    · obtain ⟨l, -, h⟩ := bind_eq_ok.1 h
      obtain ⟨r, -, h⟩ := bind_eq_ok.1 h
      have hw := Except.ok.inj h
      subst hw
      exact .inr (if_pos (isNumericFamily_of_fixed n (List.mem_of_find?_eq_some hn))).symm
    · exact matches_arithBlobNumeric h
  · exact matches_arithBlobNumeric h

theorem matches_cast {target : XsdType} (h : v.cast R H scratch target = .ok w) : w = v ∨ w.Matches := by
  unfold cast at h
  split at h
  · exact .inl (Except.ok.inj h).symm
  · obtain ⟨l, -, h⟩ := bind_eq_ok.1 h
    have hw := Except.ok.inj h
    subst hw
    right
    split
    · exact .inl rfl
    · exact matches_ofNumericResult _ _

end TypedVariant

/-- Every constructor stores what the tag stands for, but for the literals of
the one datatype. -/
theorem Constructible.matches_or {Lit : Type} {R : Rdf4cppOps Lit} {P : NumberParsers} {H : Heap} {v : TypedVariant}
    (h : Constructible R P H v) : v.Matches ∨ v.tag = .anyLiteralScalar ∧ v.payload.kind = .node := by
  induction h with
  | literal h => exact .inl (matches_translateLiteral h)
  | scalar h => exact .inl (matches_createScalar h)
  | nodeRef scratch h => exact matches_createNodeRef scratch h
  | edgeRef address => exact .inl (.inr rfl)
  | unspecifiedIf cond _ ih =>
    cases cond with
    | true => exact .inl (.inl rfl)
    | false => exact ih
  | cast _ h ih =>
    rcases matches_cast h with rfl | hw
    · exact ih
    · exact .inl hw
  | strCast _ h _ | langCast _ h _ =>
    obtain ⟨s, -, h⟩ := bind_eq_ok.1 h
    cases h
    exact .inl (.inr rfl)
  | concat _ _ h _ _ =>
    obtain ⟨l, -, h⟩ := bind_eq_ok.1 h
    obtain ⟨r, -, h⟩ := bind_eq_ok.1 h
    cases h
    exact .inl (.inr rfl)
  | arith _ _ h _ _ => exact .inl (matches_arith h)

/-! ## The result -/

/-- Every operation reads the payload of `v` as what it is. -/
structure Decodes {Lit : Type} (R : Rdf4cppOps Lit) (H : Heap) (v : TypedVariant) : Prop where
  cmp : ∀ p w, Spares .lhs (TypedVariant.cmp R.toRdf4cpp H p v w) ∧ Spares .rhs (TypedVariant.cmp R.toRdf4cpp H p w v)
  hash : ∀ hashVarLenData total, Spares .lhs (v.hash R.toRdf4cpp H hashVarLenData total)
  order : ∀ w, Spares .lhs (v.compareOrder R.toRdf4cpp H w) ∧ Spares .rhs (w.compareOrder R.toRdf4cpp H v)
  lexicalForm : Spares .lhs (v.computeLexicalForm R.toRdf4cpp H .lhs)
  fullForm : Spares .lhs (v.computeFullForm R H)
  strCast : Spares .lhs (v.strCast R H)
  concat : ∀ w, Spares .lhs (v.concat R H w) ∧ Spares .rhs (w.concat R H v)
  langCast : Spares .lhs (v.langCast R H)
  langMatches : ∀ range, Spares .lhs (v.langMatches R H range)
  cast : ∀ scratch target, Spares .lhs (v.cast R H scratch target)
  arith : ∀ scratch p w, Spares .lhs (TypedVariant.arith R H scratch p v w) ∧
    Spares .rhs (TypedVariant.arith R H scratch p w v)

section

variable {Lit : Type} {R : Rdf4cppOps Lit} {P : NumberParsers} {H : Heap} {v : TypedVariant}

theorem TypedVariant.Matches.decodes (h : v.Matches) (hedge : v.tag ≠ .edge) (hiri : v.tag ≠ .anyIRI)
    (hscalar : v.tag ≠ .anyLiteralScalar) : Decodes R H v where
  cmp _ _ := ⟨spares_cmp (fun _ => h) nofun, spares_cmp nofun fun _ => h⟩
  hash _ _ := spares_hash h hedge hiri hscalar
  order _ := ⟨spares_compareOrder (fun _ => h) nofun, spares_compareOrder nofun fun _ => h⟩
  lexicalForm := spares_computeLexicalForm fun _ => h
  fullForm := spares_computeFullForm fun _ => h
  strCast := (spares_computeLexicalForm fun _ => h).ok
  concat _ := ⟨spares_concat (fun _ => h) nofun, spares_concat nofun fun _ => h⟩
  langCast := (spares_reconstructLiteral fun _ => h).ok
  langMatches _ := (spares_reconstructLiteral fun _ => h).ok
  cast _ _ := spares_cast fun _ => h
  arith _ _ _ := ⟨spares_arith (fun _ => h) nofun, spares_arith nofun fun _ => h⟩

/-- `hash` takes the payload of these for a node. -/
theorem hash_confused (hkind : v.payload.kind ≠ .node)
    (htag : v.tag = .edge ∨ v.tag = .anyIRI ∨ v.tag = .anyLiteralScalar) :
    v.hash R.toRdf4cpp H (fun _ => 0) none = .error ⟨.lhs⟩ := by
  obtain ⟨t, payload⟩ := v
  cases payload with
  | node ref => exact absurd rfl hkind
  | _ => rcases htag with rfl | rfl | rfl <;> rfl

/-- `computeLexicalForm` takes a node with the tag of the scalars for one. -/
theorem lexicalForm_confused (htag : v.tag = .anyLiteralScalar) (hkind : v.payload.kind = .node) :
    v.computeLexicalForm R.toRdf4cpp H .lhs = .error ⟨.lhs⟩ := by
  obtain ⟨t, payload⟩ := v
  cases htag
  cases payload <;> first | rfl | cases hkind

/-- **The operations read a constructed variant as it was stored** exactly
when it is no edge, no IRI of the query and no literal with the tag of the
scalars. -/
theorem decodes_iff (hv : Constructible R P H v) :
    Decodes R H v ↔ v.tag ≠ .edge ∧ v.tag ≠ .anyIRI ∧ v.tag ≠ .anyLiteralScalar := by
  constructor
  · intro h
    by_contra hnot
    have htag : v.tag = .edge ∨ v.tag = .anyIRI ∨ v.tag = .anyLiteralScalar := by tauto
    rcases hv.matches_or with hm | ⟨hscalar, hnode⟩
    · have hnot : v.tag.payloadKind ≠ .nothing ∧ v.tag.payloadKind ≠ .node := by
        rcases htag with ht | ht | ht <;> rw [ht] <;> decide
      have hkind : v.payload.kind ≠ .node := by
        rw [hm.kind_eq rfl hnot.1]
        exact hnot.2
      exact h.hash _ _ _ (hash_confused hkind htag) rfl
    · exact h.lexicalForm _ (lexicalForm_confused hscalar hnode) rfl
  · rintro ⟨hedge, hiri, hscalar⟩
    rcases hv.matches_or with hm | ⟨htag, -⟩
    · exact hm.decodes hedge hiri hscalar
    · exact absurd htag hscalar

end

/-- The library of exact numbers, with no arithmetic. -/
def exactOps : Rdf4cppOps ExactLiteral where
  toRdf4cpp := exactLits
  arith _ _ _ := none
  cast _ _ := none
  value _ l := l.double
  languageTag _ := []
  langMatches _ _ := false
  print l := l.lex
  floatArith _ _ l _ := l

def noNumbers : NumberParsers where
  stoll _ := none
  stof _ := none
  stod _ := none
  packedDateTime _ := none

/-- A graph whose nodes are literals `"1"^^xsd:anyLiteralScalar`. -/
def craftedHeap : Heap where
  view _ := ⟨0, .fromIri (some (XsdType.xsdIri "anyLiteralScalar")), 0, 0, 0, 0, [], ascii "1", [], 0, [], .literal,
    by decide⟩
  edgeText _ := []

/-- The IRI `<a>` of a query cannot be hashed; a crafted literal cannot be
printed or compared. -/
theorem decodes_crafted : (∃ iri, translateLiteral noNumbers ⟨ascii "a", .anyIRI, []⟩ = some iri ∧
      Constructible exactOps noNumbers craftedHeap iri ∧
      iri.hash exactLits craftedHeap (fun _ => 0) none = .error ⟨.lhs⟩) ∧
    ∃ lit, lit = TypedVariant.createNodeRef craftedHeap ⟨0, 0⟩ 0 ∧ Constructible exactOps noNumbers craftedHeap lit ∧
      lit.computeLexicalForm exactLits craftedHeap .lhs = .error ⟨.lhs⟩ ∧
      TypedVariant.cmp exactLits craftedHeap .eq lit lit = .error ⟨.lhs⟩ := by
  have hiri : translateLiteral noNumbers ⟨ascii "a", .anyIRI, []⟩ = some ⟨.anyIRI, .text (some (ascii "a"))⟩ := rfl
  refine ⟨⟨_, hiri, .literal hiri, rfl⟩, _, rfl, .nodeRef 0 ?_, ?_⟩
  · exact fun _ => ⟨XsdType.xsdIri "anyLiteralScalar", rfl⟩
  · decide +kernel

theorem decodes_iff_one : Decodes exactOps craftedHeap ⟨.long, .inline 1⟩ :=
  (decodes_iff (P := noNumbers) (.scalar (s := .i64 1) rfl)).2 (by decide)

end GengoDB
