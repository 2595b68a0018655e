/-
A triple pattern has one reading: a row for every edge in use whose nodes are
the pattern's identifiers and bound values, and that gives a variable one term.
`lower` should yield it from the subject, from the object and from all edges.

Filters and anchors do not take bound values the same way. An anchor is looked
up as a term, in the dictionary or the cache of literals, and a reference into
another graph is refused; a filter asks `variant.cmp`, for which values of
different terms can be equal. On resources the two agree (`compares_resource`),
so subjects and predicates are filtered right and only the value of the object
can be compared wrong (`emitSlots_ok`).
-/
import GengoDB.TripleEmitter
import GengoDB.VariantHash

namespace GengoDB

open List TypedVariant GraphEmitter Option

open Codec (putLE)
open GraphNodeIndex (SharedTerm)
open Sparql (Column)

/-! ## Values as terms -/

/-- The term of a node, in the graphs at their addresses. -/
def meaningOf (graphs : Nat → Option RdfGraph) (ref : NodeRef) : Option TermKey :=
  (graphs ref.graph).bind fun g => g.meaning ref.id

namespace TypedVariant

/-- The term of a value that is no reference. -/
def term? (v : TypedVariant) : Option TermKey :=
  match v.payload with
  | .inline bits => some (.literal v.tag.toDatatypeIri
      (if v.tag.classifyStorage.1 = .inline32 then putLE 4 (lowBytes v.tag.classifyStorage.2 bits).toNat
        else putLE 8 bits.toNat))
  | .text s => some (if v.tag = .anyIRI then .iri (s.getD []) else .literal v.tag.toDatatypeIri (0 :: s.getD []))
  | .scalar raw =>
    let dtLen := littleEndian (raw.take 4)
    some (.literal ((raw.drop 4).take dtLen) (0 :: (raw.drop 4).drop dtLen))
  | .node _ | .edge _ | .invalid => none

/-- `v` is the term of the node: a reference to it, or to a node of the same
IRI or literal, or a scalar of that term. -/
def Is (graphs : Nat → Option RdfGraph) (ref : NodeRef) (v : TypedVariant) : Prop :=
  match v.payload with
  | .node r => r = ref ∨ SharedTerm (meaningOf graphs r) (meaningOf graphs ref)
  | _ => ∃ k, v.term? = some k ∧ meaningOf graphs ref = some k

end TypedVariant

/-- What the runtime finds in memory: the graphs and their dictionaries, and
the ids the index of the graphs gave to the resources
(`GraphNodeIndex.Correct`). -/
structure Runtime (graphs : Nat → Option RdfGraph) (H : Heap) : Prop where
  opened : ∀ a g, graphs a = some g → g.Opened
  shows : ∀ a g, graphs a = some g → Shows H a g
  named : ∀ a g id node, graphs a = some g → g.nodes.get id = some node →
    (H.view ⟨a, id⟩).nodeType = node.type ∧ (H.view ⟨a, id⟩).nodeName = g.nodeName id
  uid : ∀ r r' k k', meaningOf graphs r = some k → meaningOf graphs r' = some k' → k.isLiteral = false →
    k'.isLiteral = false → ((H.view r).uid = (H.view r').uid ↔ r = r' ∨ SharedTerm (some k) (some k'))

/-- What a row can hold: the variant of a node, or a scalar. -/
inductive RowValue (graphs : Nat → Option RdfGraph) (H : Heap) : TypedVariant → Prop where
  | nodeRef {ref} (scratch) (h : (meaningOf graphs ref).isSome = true) :
    RowValue graphs H (.createNodeRef H ref scratch)
  | scalar {v} (hkind : v.payload.kind ≠ .node) (hmatch : v.Matches) : RowValue graphs H v

variable {g : RdfGraph}

namespace Runtime

variable {graphs : Nat → Option RdfGraph} {H : Heap} {ref : NodeRef} {k : TermKey} {v : TypedVariant}

theorem meaningOf_eq_some : meaningOf graphs ref = some k ↔
    ∃ g, graphs ref.graph = some g ∧ g.meaning ref.id = some k := bind_eq_some_iff

/-- The terms of a graph in memory. -/
theorem keys {a : Nat} (h : Runtime graphs H) (hg : graphs a = some g) : ∃ keys, g.Described keys ∧
    (g.Interned keys ∨ g.literalNodes = []) ∧ ∀ n, meaningOf graphs ⟨a, n⟩ = keys[n]? := by
  obtain ⟨keys, hdesc, hcache⟩ := h.opened a g hg
  refine ⟨keys, hdesc, hcache, fun n => ?_⟩
  rw [meaningOf, hg]
  exact hdesc.meaning n

section
variable (h : Runtime graphs H) (hk : meaningOf graphs ref = some k)
include h hk

/-- A node of a graph in memory. -/
theorem node_of : ∃ g keys, graphs ref.graph = some g ∧ g.Described keys ∧ keys[ref.id]? = some k ∧
    (H.view ref).Of g ref.id := by
  obtain ⟨g, hg, -⟩ := meaningOf_eq_some.1 hk
  obtain ⟨keys, hdesc, -, hkeys⟩ := h.keys hg
  have hid : keys[ref.id]? = some k := (hkeys ref.id).symm.trans hk
  exact ⟨g, keys, hg, hdesc, hid, h.shows _ _ hg _ (hdesc.size ▸ (List.getElem?_eq_some_iff.1 hid).1)⟩

theorem tag_resource (hres : k.isLiteral = false) : (H.view ref).tag = .node := by
  obtain ⟨g, keys, -, hdesc, hid, hof⟩ := h.node_of hk
  exact hdesc.tag_resource hid hres hof

theorem tag_literal (hlit : k.isLiteral) :
    (H.view ref).tag ≠ .node ∧ (H.view ref).tag ≠ .anyIRI ∧ (H.view ref).tag ≠ .edge := by
  obtain ⟨g, keys, -, hdesc, hid, hof⟩ := h.node_of hk
  cases k with
  | literal datatype data =>
    rw [hdesc.tag_literal hid hof]
    exact XsdType.ne_of_mem_names (XsdType.fromIri_mem datatype)
  | _ => cases hlit

/-- An IRI of the query equals the node that is this IRI. -/
theorem compareIri_iff (hres : k.isLiteral = false) (iri : Bytes) :
    compareIri .eq iri (H.view ref) = some true ↔ k = .iri iri := by
  obtain ⟨g, keys, hg, hdesc, hid, hof⟩ := h.node_of hk
  have hget := hdesc.get hid
  have hpayload : (H.view ref).payload = graphNone := hof.payload.trans (hdesc.store.resource _ _ hid hres)
  obtain ⟨htype, hname⟩ := h.named _ _ _ _ hg hget
  unfold compareIri
  rw [hpayload, htype, hname]
  cases k with
  | iri a =>
    have hbracketed : g.nodeName ref.id = 60 :: (a ++ [62]) := by
      rw [RdfGraph.nodeName, hget]
      rfl
    rw [hbracketed, if_neg (by simp [TermKey.nodeId, NodeId.ofIri])]
    simp only [CmpPredicate.holds, some.injEq, Ordering.isEq_iff_eq_eq, compareBytes_eq_iff]
    simp [eq_comm]
  | bnode label =>
    rw [if_pos (.inr (by simp [TermKey.nodeId, NodeId.ofBlank]))]
    simp
  | literal datatype data => cases hres

end

/-- A value is a reference with the tag of its node, or a scalar. -/
theorem cases_value (h : Runtime graphs H) (hv : RowValue graphs H v) :
    (∃ ref k, v = ⟨(H.view ref).tag, .node ref⟩ ∧ meaningOf graphs ref = some k ∧
      (H.view ref).tag.payloadKind ∈ [.node, .scalar, .nothing]) ∨ (v.payload.kind ≠ .node ∧ v.Matches) := by
  cases hv with
  | scalar hkind hmatch => exact .inr ⟨hkind, hmatch⟩
  | @nodeRef ref scratch hsome =>
    obtain ⟨k, hk⟩ := isSome_iff_exists.1 hsome
    obtain ⟨g, keys, -, hdesc, hid, hof⟩ := h.node_of hk
    have hmatch := matches_createNodeRef scratch (hdesc.loadable hid hof)
    by_cases hkind : (TypedVariant.createNodeRef H ref scratch).payload.kind = .node
    · have hmem : (H.view ref).tag.payloadKind ∈ [.node, .scalar, .nothing] := by
        rcases hmatch with (hnothing | hmatch) | ⟨htag, -⟩
        · rw [show (H.view ref).tag.payloadKind = .nothing from hnothing]
          decide
        · rw [show (H.view ref).tag.payloadKind = .node from hmatch.symm.trans hkind]
          decide
        · rw [show (H.view ref).tag = .anyLiteralScalar from htag]
          decide
      have hne kind (hk : kind ∉ [.node, .scalar, .nothing]) : (H.view ref).tag.payloadKind ≠ kind :=
        fun h => hk (h ▸ hmem)
      exact .inl ⟨ref, k, RdfGraph.createNodeRef_ref (hne .inline (by decide)) (hne .text (by decide)) scratch, hk, hmem⟩
    · exact .inr ⟨hkind, hmatch.resolve_right fun hs => hkind hs.2⟩

end Runtime

/-! ## Comparisons with resources -/

namespace TypedVariant

variable {Lit : Type} {R : Rdf4cpp Lit} {H : Heap} {a b : TypedVariant}

/-- A resource equals no value of another kind. -/
theorem cmp_node_other (ha : a.tag = .node) (hb : b.tag ≠ .node) (hiri : b.tag ≠ .anyIRI) :
    ∃ c, cmp R H .eq a b = .ok c ∧ c ≠ some true := by
  unfold cmp crossTag
  rw [ha]
  revert hb hiri
  cases b.tag <;> simp [isResource, isLiteral, XsdType.isNumericFamily, XsdType.isScratchPayload, pure, Except.pure]

theorem cmp_other_node (ha : a.tag ≠ .node) (hiri : a.tag ≠ .anyIRI) (hb : b.tag = .node) :
    ∃ c, cmp R H .eq a b = .ok c ∧ c ≠ some true := by
  unfold cmp crossTag
  rw [hb]
  revert ha hiri
  cases a.tag <;> simp [isResource, isLiteral, XsdType.isNumericFamily, XsdType.isScratchPayload, pure, Except.pure]

/-- Two references to resources are compared by the ids of the index. -/
theorem cmp_node_node (r r' : NodeRef) : cmp R H .eq ⟨.node, .node r⟩ ⟨.node, .node r'⟩ =
    .ok (some (decide ((H.view r).uid = (H.view r').uid))) := by
  have hrun : cmp R H .eq ⟨.node, .node r⟩ ⟨.node, .node r'⟩ =
      .ok (some (compare (H.view r).uid (H.view r').uid).isEq) := rfl
  have hcmp : (compare (H.view r).uid (H.view r').uid).isEq = decide ((H.view r).uid = (H.view r').uid) := by
    rw [Bool.eq_iff_iff, Ordering.isEq_iff_eq_eq, compare_eq_iff_eq, decide_eq_true_iff]
  rw [hrun, hcmp]

/-- A reference and an IRI are compared by the node's name. -/
theorem cmp_node_iri (r : NodeRef) (s : Option Bytes) : cmp R H .eq ⟨.node, .node r⟩ ⟨.anyIRI, .text s⟩ =
    .ok (compareIri .eq (s.getD []) (H.view r)) := rfl

end TypedVariant

namespace GraphEmitter

variable {Lit : Type} {graphs : Nat → Option RdfGraph} {E : GraphEmitter Lit} {v : TypedVariant} {n m : Nat}
  {k k' : TermKey}

/-- Comparing the node with `v` tells whether `v` is its term. -/
def Compares (E : GraphEmitter Lit) (graphs : Nat → Option RdfGraph) (v : TypedVariant) (n : Nat) : Prop :=
  ∃ c, TypedVariant.cmp E.lib E.heap .eq (E.wrapNode n) v = .ok c ∧ (c = some true ↔ v.Is graphs ⟨E.address, n⟩)

/-- The term of a scalar is a literal, or the IRI it was written as. -/
theorem term?_eq_some (hk : v.term? = some k) : k.isLiteral ∨ v.tag = .anyIRI ∧ ∃ a, k = .iri a := by
  unfold term? at hk
  split at hk
  · cases hk
    exact .inl rfl
  · cases hk
    split
    · next htag => exact .inr ⟨htag, _, rfl⟩
    · exact .inl rfl
  · cases hk
    exact .inl rfl
  all_goals cases hk

theorem not_is_of_ne {r : NodeRef} (hv : v.payload = .node r) (hr : meaningOf graphs r = some k')
    (hn : meaningOf graphs ⟨E.address, n⟩ = some k) (hne : k' ≠ k) : ¬ v.Is graphs ⟨E.address, n⟩ := by
  unfold TypedVariant.Is
  rw [hv]
  rintro (rfl | ⟨k0, h1, h2, -⟩)
  · exact hne (some.inj (hr.symm.trans hn))
  · exact hne (some.inj (hr.symm.trans (h1.trans (h2.symm.trans hn))))

theorem is_scalar {ref : NodeRef} (hv : v.payload.kind ≠ .node) :
    v.Is graphs ref ↔ ∃ k, v.term? = some k ∧ meaningOf graphs ref = some k := by
  unfold TypedVariant.Is
  split
  · next h => exact absurd (by rw [h]; rfl) hv
  · rfl

section
variable (hrt : Runtime graphs E.heap) (hn : meaningOf graphs ⟨E.address, n⟩ = some k)
include hrt hn

theorem wrapNode_resource (hk : k.isLiteral = false) : E.wrapNode n = ⟨.node, .node ⟨E.address, n⟩⟩ := by
  have htag := hrt.tag_resource hn hk
  rw [wrapNode, RdfGraph.createNodeRef_ref (by rw [htag]; nofun) (by rw [htag]; nofun), htag]

/-- **A resource is compared right** with every value of a row. -/
theorem compares_resource (hk : k.isLiteral = false) (hv : RowValue graphs E.heap v) : E.Compares graphs v n := by
  unfold Compares
  rw [wrapNode_resource hrt hn hk]
  rcases hrt.cases_value hv with ⟨r, k', rfl, hr, -⟩ | ⟨hkind, hmatch⟩
  · cases hlit : k'.isLiteral with
    | false =>
      rw [hrt.tag_resource hr hlit, cmp_node_node]
      refine ⟨_, rfl, ?_⟩
      have huid := hrt.uid r ⟨E.address, n⟩ k' k hr hn hlit hk
      rw [some.injEq, decide_eq_true_iff, eq_comm, huid, ← hr, ← hn]
      rfl
    | true =>
      obtain ⟨htag, hiri, -⟩ := hrt.tag_literal hr hlit
      obtain ⟨c, hc, hne⟩ := cmp_node_other (a := ⟨.node, .node ⟨E.address, n⟩⟩)
        (b := ⟨(E.heap.view r).tag, .node r⟩) rfl htag hiri
      refine ⟨c, hc, iff_of_false hne (not_is_of_ne rfl hr hn fun he => ?_)⟩
      rw [he, hk] at hlit
      cases hlit
  · rw [is_scalar hkind, hn]
    have htag : v.tag ≠ .node := fun ht => hkind (hmatch.kind_eq (by rw [ht]; rfl) nofun)
    by_cases hiri : v.tag = .anyIRI
    · -- An IRI of the query: the name of the node decides.
      obtain ⟨s, hs⟩ : ∃ s, v = ⟨.anyIRI, .text s⟩ := by
        obtain ⟨s, hs⟩ := isSome_iff_exists.1 (hmatch.text (.inr hiri))
        refine ⟨s, ?_⟩
        cases v with
        | mk tag payload =>
          cases hiri
          cases payload <;> cases hs
          rfl
      subst hs
      rw [cmp_node_iri]
      refine ⟨_, rfl, ?_⟩
      rw [hrt.compareIri_iff hn hk]
      simp [term?]
    · obtain ⟨c, hc, hne⟩ := cmp_node_other
        (a := ⟨.node, .node ⟨E.address, n⟩⟩) rfl htag hiri
      refine ⟨c, hc, iff_of_false hne fun ⟨k0, hterm, he⟩ => ?_⟩
      cases he
      rw [(term?_eq_some hterm).resolve_right fun h => hiri h.1] at hk
      cases hk

/-- And so is every node with a resource. -/
theorem compares_to_resource (hm : meaningOf graphs ⟨E.address, m⟩ = some k') (hk' : k'.isLiteral = false) :
    E.Compares graphs (E.wrapNode m) n := by
  cases hk : k.isLiteral with
  | false => exact compares_resource hrt hn hk (.nodeRef _ (by rw [hm]; rfl))
  | true =>
    obtain ⟨htag, hiri, -⟩ := hrt.tag_literal hn hk
    rw [wrapNode_resource hrt hm hk']
    obtain ⟨c, hc, hne⟩ := cmp_other_node (a := E.wrapNode n)
      (b := ⟨.node, .node ⟨E.address, m⟩⟩) htag hiri rfl
    refine ⟨c, hc, iff_of_false hne (not_is_of_ne rfl hm hn fun he => ?_)⟩
    rw [he, hk] at hk'
    cases hk'

end

end GraphEmitter

/-! ## Anchors -/

/-- The node of a term of the query. -/
def RdfGraph.nodeOf (g : RdfGraph) : TermKey → Option Nat
  | .iri a => g.nodeFromIri a
  | .bnode _ => none
  | .literal datatype data => g.nodeFromRdfLiteral datatype data

theorem XsdType.unspecified_of_nothing {t : XsdType} (h : t.payloadKind = .nothing) : t = unspecified := by
  revert h
  cases t <;> decide

theorem XsdType.anyLiteralScalar_of_scalar {t : XsdType} (h : t.payloadKind = .scalar) : t = anyLiteralScalar := by
  revert h
  cases t <;> decide

/-- A scalar is looked up as its term. -/
theorem TypedVariant.resolveNode_term {address : Nat} {v : TypedVariant} (hkind : v.payload.kind ≠ .node)
    (hmatch : v.Matches) (hun : v.tag ≠ .unspecified) : v.resolveNode g address = .ok (v.term?.bind g.nodeOf) := by
  have hpay : v.payload.kind = v.tag.payloadKind :=
    hmatch.resolve_left fun h => hun (XsdType.unspecified_of_nothing h)
  obtain ⟨t, payload⟩ := v
  cases payload with
  | inline bits => exact resolveNode_inline (RdfGraph.kind_tags.1 hpay.symm)
  | node ref => exact absurd rfl hkind
  | text _ | scalar _ | edge _ | invalid =>
    revert hpay
    cases t <;> first | exact fun _ => rfl | exact fun h => nomatch h

namespace GraphEmitter

variable {Lit : Type} {graphs : Nat → Option RdfGraph} {E : GraphEmitter Lit} {v : TypedVariant} {n m : Nat}
  {k : TermKey}

/-- An anchor that is an exception: a reference into another graph, or one
that is read as a string. -/
def Refused (E : GraphEmitter Lit) (v : TypedVariant) : Prop :=
  ∃ r, v.payload = .node r ∧ v.tag ≠ .unspecified ∧ (r.graph ≠ E.address ∨ v.tag = .anyLiteralScalar)

/-- An anchor that is looked for: a literal needs the cache. -/
def Known (E : GraphEmitter Lit) (v : TypedVariant) : Prop :=
  v.tag ≠ .unspecified ∧ ∀ k, v.term? = some k → k.isLiteral = true → E.graph.literalNodes ≠ []

/-- A term of the query is found where it is. -/
theorem nodeOf_iff {keys : List TermKey} {a : TermKey} (hdesc : E.graph.Described keys)
    (hcache : a.isLiteral → E.graph.Interned keys) (hb : ∀ label, a ≠ .bnode label) :
    E.graph.nodeOf a = some n ↔ keys[n]? = some a := by
  cases a with
  | iri iri => exact hdesc.getSafe_iff (k := .iri iri) rfl trivial
  | bnode label => exact absurd rfl (hb label)
  | literal datatype data => exact (hcache rfl).nodeFromRdfLiteral_iff

/-- A value has one term. -/
theorem is_unique {r r' : NodeRef} (h : v.Is graphs r) (h' : v.Is graphs r') :
    meaningOf graphs r = meaningOf graphs r' := by
  unfold TypedVariant.Is at h h'
  split at h
  · next r0 hp =>
    rw [hp] at h'
    have hmeaning {r} (h : r0 = r ∨ SharedTerm (meaningOf graphs r0) (meaningOf graphs r)) :
        meaningOf graphs r0 = meaningOf graphs r := by
      rcases h with rfl | ⟨k, h1, h2, -⟩
      · rfl
      · rw [h1, h2]
    exact (hmeaning h).symm.trans (hmeaning h')
  · next hp =>
    obtain ⟨k, hk, hr⟩ := h
    split at h'
    · next r0 hp' => exact absurd hp' (hp r0)
    · obtain ⟨k', hk', hr'⟩ := h'
      rw [hr, hr', ← hk, hk']

/-- An identifier is an anchor if the graph knows it. -/
theorem resolveAnchor_ident (E : GraphEmitter Lit) (iri : Bytes) : ∃ q, E.resolveAnchor (.ident iri) = .ok q ∧
      ∀ id : Int, 0 ≤ id → (q.map Int.ofNat = some id ↔ E.createIdentifier iri = id) := by
  refine ⟨_, rfl, fun id hid => ?_⟩
  split
  · rw [map_some, some.injEq]
    show ((E.createIdentifier iri).toNat) = id ↔ _
    omega
  · simp only [map_none, reduceCtorEq, false_iff]
    omega

section
variable (hrt : Runtime graphs E.heap)
include hrt

/-- What cannot be looked for gives no node. -/
theorem resolveNode_unknown (hv : RowValue graphs E.heap v) (hun : ¬ E.Known v) :
    v.resolveNode E.graph E.address = .ok none := by
  by_cases htag : v.tag = .unspecified
  · obtain ⟨t, payload⟩ := v
    cases htag
    rfl
  · obtain ⟨k, hk⟩ := not_forall.1 (not_and.1 hun htag)
    obtain ⟨hterm, hlit, hnil⟩ : v.term? = some k ∧ k.isLiteral ∧ E.graph.literalNodes = [] := by
      simpa using hk
    rcases hrt.cases_value hv with ⟨r, k', rfl, -⟩ | ⟨hkind, hmatch⟩
    · cases hterm
    · rw [resolveNode_term hkind hmatch htag, hterm]
      cases k with
      | literal datatype data => exact congrArg _ (RdfGraph.nodeFromRdfLiteral_of_nil hnil datatype data)
      | _ => cases hlit

theorem isSome_of_is {ref : NodeRef} (hv : RowValue graphs E.heap v) (h : v.Is graphs ref) :
    (meaningOf graphs ref).isSome := by
  rw [isSome_iff_exists]
  rcases hrt.cases_value hv with ⟨r, k, rfl, hr, -⟩ | ⟨hkind, -⟩
  · rcases h with rfl | ⟨k', -, h', -⟩
    · exact ⟨k, hr⟩
    · exact ⟨k', h'⟩
  · obtain ⟨k, -, hk⟩ := (is_scalar hkind).1 h
    exact ⟨k, hk⟩

variable (hg : graphs E.address = some E.graph)
include hg

/-- **An anchor that is looked for** gives the node whose term it is. -/
theorem resolveNode_known (hv : RowValue graphs E.heap v) (href : ¬ E.Refused v) (hknown : E.Known v) :
    ∃ q, v.resolveNode E.graph E.address = .ok q ∧ ∀ n, q = some n ↔ v.Is graphs ⟨E.address, n⟩ := by
  obtain ⟨keys, hdesc, hcache, hmeaning⟩ := hrt.keys hg
  rcases hrt.cases_value hv with ⟨r, k, rfl, -, hkind⟩ | ⟨hkind, hmatch⟩
  · have htags : (E.heap.view r).tag.payloadKind = .node ∧ r.graph = E.address := by
      by_contra hnot
      refine href ⟨r, rfl, hknown.1, ?_⟩
      simp only [mem_cons, not_mem_nil, or_false] at hkind
      rcases hkind with hkind | hkind | hkind
      · exact .inl fun he => hnot ⟨hkind, he⟩
      · exact .inr (XsdType.anyLiteralScalar_of_scalar hkind)
      · exact absurd (XsdType.unspecified_of_nothing hkind) hknown.1
    obtain ⟨hnode, hgraph⟩ := htags
    rw [resolveNode_ref hnode]
    refine ⟨some r.id, if_pos hgraph, fun n => ?_⟩
    obtain ⟨a, id⟩ := r
    cases hgraph
    constructor
    · intro he
      cases he
      exact .inl rfl
    · rintro (he | ⟨k', h1, h2, -⟩)
      · rw [show id = n from congrArg NodeRef.id he]
      · rw [hmeaning] at h1 h2
        rw [Assoc.nodup_getElem?_inj hdesc.nodup h1 h2]
  · rw [resolveNode_term hkind hmatch hknown.1]
    refine ⟨_, rfl, fun n => ?_⟩
    rw [is_scalar hkind, hmeaning, bind_eq_some_iff]
    refine exists_congr fun k => and_congr_right fun hterm => ?_
    refine nodeOf_iff hdesc (fun hlit => hcache.resolve_right (hknown.2 k hterm hlit)) fun label => ?_
    rintro rfl
    rcases term?_eq_some hterm with h | ⟨-, a, h⟩ <;> cases h

/-- The variant of a resource is the term of one node. -/
theorem is_wrapNode (hn : meaningOf graphs ⟨E.address, n⟩ = some k) (hk : k.isLiteral = false) :
    (E.wrapNode n).Is graphs ⟨E.address, m⟩ ↔ meaningOf graphs ⟨E.address, n⟩ = meaningOf graphs ⟨E.address, m⟩ := by
  have hself : (E.wrapNode n).Is graphs ⟨E.address, n⟩ := by
    rw [wrapNode_resource hrt hn hk]
    exact .inl rfl
  refine ⟨is_unique hself, fun he => ?_⟩
  obtain ⟨keys, hdesc, -, hmeaning⟩ := hrt.keys hg
  rw [hmeaning] at hn
  rw [hmeaning, hmeaning, hn] at he
  rwa [Assoc.nodup_getElem?_inj hdesc.nodup hn he.symm] at hself ⊢

/-- An identifier is the node of its IRI. -/
theorem createIdentifier_iff {iri : Bytes} {id : Int} (hid : 0 ≤ id) :
    E.createIdentifier iri = id ↔ meaningOf graphs ⟨E.address, id.toNat⟩ = some (.iri iri) := by
  obtain ⟨keys, hdesc, -, hmeaning⟩ := hrt.keys hg
  have hfound : E.graph.nodes.getSafe (.ofIri iri) = some id.toNat ↔ keys[id.toNat]? = some (.iri iri) :=
    hdesc.getSafe_iff (k := .iri iri) rfl trivial
  rw [hmeaning, ← hfound, createIdentifier]
  cases E.graph.nodes.getSafe (.ofIri iri) with
  | none => simp; omega
  | some id' => simp; omega

end

end GraphEmitter

/-- The id in a slot of an edge. -/
def RelEntry.slotId (e : RelEntry Int) : Slot → Int
  | .subject => e.firstNodeId
  | .predicate => e.typeId.toInt
  | .object => e.secondNodeId

namespace RdfGraph

def edgesInUse (g : RdfGraph) : List (RelEntry Int) :=
  ((range g.store.graph.relPool.mark.toNat).map fun i : Nat => g.store.graph.rels i).filter fun e => e.inUse

/-- Every edge in use goes out from a resource, by way of an IRI. -/
def Placed (g : RdfGraph) : Prop := ∀ e ∈ g.edgesInUse, 0 ≤ e.typeId.toInt ∧
  (∃ k, g.meaning e.firstNodeId.toNat = some k ∧ k.isLiteral = false) ∧
  ∃ a, g.meaning e.typeId.toInt.toNat = some (.iri a)

end RdfGraph

/-! ## Edges -/

namespace GraphEmitter

variable {Lit : Type} {graphs : Nat → Option RdfGraph} {E : GraphEmitter Lit} {e : RelEntry Int}

/-- The node in a slot of an edge. -/
def node (E : GraphEmitter Lit) (e : RelEntry Int) (slot : Slot) : NodeRef := ⟨E.address, (e.slotId slot).toNat⟩

/-- What the filters need to know of an edge. -/
structure Valid (E : GraphEmitter Lit) (graphs : Nat → Option RdfGraph) (e : RelEntry Int) : Prop where
  nonneg : ∀ slot, 0 ≤ e.slotId slot
  nodes : ∀ slot, ∃ k, meaningOf graphs (E.node e slot) = some k ∧ (slot ≠ .object → k.isLiteral = false)

theorem mem_edgesInUse : e ∈ g.edgesInUse ↔
    ∃ i : Nat, i < g.store.graph.relPool.mark.toNat ∧ g.store.graph.rels i = e ∧ e.inUse := by
  rw [RdfGraph.edgesInUse, mem_filter, List.mem_map]
  simp only [mem_range]
  constructor
  · rintro ⟨⟨i, hi, rfl⟩, huse⟩
    exact ⟨i, hi, rfl, huse⟩
  · rintro ⟨i, hi, rfl, huse⟩
    exact ⟨⟨i, hi, rfl⟩, huse⟩

/-- The edges of the scan over all edges. -/
theorem map_edge_scanAll (E : GraphEmitter Lit) :
    (EdgeScan.scanAll E.layout E.graph.store.graph).map E.edge = E.graph.edgesInUse := by
  have hedge i : E.edge (E.layout.relRef i) = E.graph.store.graph.rels i := by
    rw [edge, E.layout.relId_relRef]
  rw [EdgeScan.scanAll, RdfGraph.edgesInUse, List.filter_map, List.map_map]
  exact map_congr_left fun i _ => hedge i

section
variable (hrt : Runtime graphs E.heap) (hg : graphs E.address = some E.graph)
include hrt hg

theorem valid_of_mem (hplaced : E.graph.Placed) (he : e ∈ E.graph.edgesInUse) : E.Valid graphs e := by
  obtain ⟨keys, hdesc, -, hkeys⟩ := hrt.keys hg
  obtain ⟨L, hwf⟩ := hdesc.store.wf
  obtain ⟨i, -, rfl, huse⟩ := mem_edgesInUse.1 he
  obtain ⟨htype, ⟨k, hk, hres⟩, a, ha⟩ := hplaced _ he
  have hmark := hdesc.store.nodeMark
  have hfirst := hwf.nodePool.bounds (hwf.endpoint i _ huse (.inl rfl))
  have hsecond := hwf.nodePool.bounds (hwf.endpoint i _ huse (.inr rfl))
  have hmeaning n : meaningOf graphs ⟨E.address, n⟩ = E.graph.meaning n := (hkeys n).trans (hdesc.meaning n).symm
  refine ⟨fun slot => ?_, fun slot => ?_⟩
  · cases slot with
    | subject => exact hfirst.1
    | predicate => exact htype
    | object => exact hsecond.1
  · cases slot with
    | subject => exact ⟨k, (hmeaning _).trans hk, fun _ => hres⟩
    | predicate => exact ⟨_, (hmeaning _).trans ha, fun _ => rfl⟩
    | object =>
      have hlt : (E.graph.store.graph.rels i).secondNodeId.toNat < keys.length := by omega
      exact ⟨_, (hkeys _).trans (getElem?_eq_getElem hlt), fun h => absurd rfl h⟩

/-- **The edges of an anchor**: those of the scan over all edges that have its
node at the scanned end. -/
theorem emitNodeToEdge_eq {anchor : Anchor} {q : Option Nat} (hq : E.resolveAnchor anchor = .ok q)
    (hnode : ∀ n, q = some n → (meaningOf graphs ⟨E.address, n⟩).isSome) (mode : EdgeScan.Mode) :
    ∃ edges fuel0, (∀ fuel, fuel0 ≤ fuel → E.emitNodeToEdge fuel anchor mode = .ok edges) ∧
      (∀ ptr ∈ edges, E.edge ptr ∈ E.graph.edgesInUse) ∧
      (edges.map E.edge).Perm (E.graph.edgesInUse.filter fun e => q.map Int.ofNat = some (mode.endpoint e)) := by
  cases q with
  | none =>
    refine ⟨[], 0, fun fuel _ => ?_, by simp, by simp⟩
    rw [emitNodeToEdge, hq]
    rfl
  | some n =>
    obtain ⟨keys, hdesc, -, hmeaning⟩ := hrt.keys hg
    obtain ⟨L, hwf⟩ := hdesc.store.wf
    have hlt : n < keys.length := by
      have hsome := hnode n rfl
      rwa [hmeaning, isSome_getElem?] at hsome
    obtain ⟨edges, ⟨fuel0, hscan⟩, -, hmem, hperm⟩ := EdgeScan.scan_of_wellFormed hwf hdesc.store.range.graph.relCap
      hdesc.store.range.graph.nodeCap E.layout mode (hdesc.store.inUse hlt)
    refine ⟨edges, fuel0, fun fuel hf => ?_, fun ptr hptr => ?_, ?_⟩
    · have hn : EdgeScan.scanAnchored fuel E.layout E.graph.store.graph mode (E.layout.nodeRef n) = some edges :=
        hscan fuel hf
      simp only [emitNodeToEdge, hq, bind, Except.bind, hn]
      rfl
    · have hall := hperm.subset hptr
      rw [← map_edge_scanAll]
      exact mem_map_of_mem (mem_filter.1 hall).1
    · have hmap := hperm.map E.edge
      rw [← map_edge_scanAll, List.filter_map]
      refine hmap.trans (.of_eq ?_)
      refine congrArg _ (filter_congr fun ptr _ => decide_eq_decide.2 ?_)
      show mode.endpoint (E.edge ptr) = n ↔ some (n : Int) = some (mode.endpoint (E.edge ptr))
      rw [some.injEq, eq_comm]

end

end GraphEmitter

/-! ## The reading of a pattern -/

namespace TripleEmitter

variable {Lit V B : Type} [DecidableEq V] [DecidableEq B] (E : TripleEmitter Lit V B)

def column (slot : Slot) : Option (Column V B) := (E.triple.term slot).column

/-- The edge matches these slots of the pattern. -/
structure Fits (E : TripleEmitter Lit V B) (graphs : Nat → Option RdfGraph) (e : RelEntry Int)
    (row : LocalTerms V B) (slots : List Slot) : Prop where
  ident : ∀ slot ∈ slots, ∀ iri, E.triple.term slot = .iri iri → meaningOf graphs (E.node e slot) = some (.iri iri)
  bound : ∀ slot ∈ slots, ∀ c v, E.column slot = some c → row.lookup c = some v → v.Is graphs (E.node e slot)
  repeated : ∀ slot ∈ slots, ∀ slot' ∈ slots, ∀ c, E.column slot = some c → E.column slot' = some c →
    meaningOf graphs (E.node e slot) = meaningOf graphs (E.node e slot')

/-- A column without a value gets that of the slot. -/
def bindSlot (e : RelEntry Int) (row : LocalTerms V B) (slot : Slot) : LocalTerms V B :=
  match E.column slot with
  | some c => Assoc.emplace row c (E.wrapNode (e.slotId slot).toNat)
  | none => row

def bindSlots (e : RelEntry Int) (slots : List Slot) (row : LocalTerms V B) :
    LocalTerms V B := slots.foldl (E.bindSlot e) row

def allSlots : List Slot := [.subject, .predicate, .object]

open scoped Classical in
/-- One row for every edge in use that matches. -/
noncomputable def reading (graphs : Nat → Option RdfGraph) (row : LocalTerms V B) : List (Emitted V B) :=
  (E.graph.edgesInUse.filter fun e => E.Fits graphs e row allSlots).map fun e =>
    E.emitTruthDegree e (E.bindSlots e allSlots row)

open scoped Classical in
/-- The row with the terms of an edge that matches these slots. -/
noncomputable def matched (graphs : Nat → Option RdfGraph) (e : RelEntry Int)
    (slots : List Slot) (row : LocalTerms V B) : Option (LocalTerms V B) :=
  if E.Fits graphs e row slots then some (E.bindSlots e slots row) else none

/-! ## Slots -/

variable {E : TripleEmitter Lit V B} {graphs : Nat → Option RdfGraph} {e : RelEntry Int} {row : LocalTerms V B}
  {slot : Slot} {slots : List Slot} {c : Column V B} {v : TypedVariant}

theorem lookup_bindSlot : (E.bindSlot e row slot).lookup c = some v ↔ row.lookup c = some v ∨
    row.lookup c = none ∧ E.column slot = some c ∧ v = E.wrapNode (e.slotId slot).toNat := by
  unfold bindSlot
  cases hc : E.column slot with
  | none => simp
  | some c' =>
    rw [Assoc.lookup_emplace, or_eq_some_iff]
    simp [eq_comm]

theorem Fits.of_subset {slots' : List Slot} (h : E.Fits graphs e row slots) (hsub : slots' ⊆ slots) :
    E.Fits graphs e row slots' where
  ident slot hslot := h.ident slot (hsub hslot)
  bound slot hslot := h.bound slot (hsub hslot)
  repeated slot hslot slot' hslot' := h.repeated slot (hsub hslot) slot' (hsub hslot')

/-- Slots of two kinds, where a variable that both have is one term. -/
theorem Fits.append {slots1 slots2 : List Slot} (h1 : E.Fits graphs e row slots1) (h2 : E.Fits graphs e row slots2)
    (hsame : ∀ slot ∈ slots1, ∀ slot' ∈ slots2, ∀ c, E.column slot = some c → E.column slot' = some c →
      meaningOf graphs (E.node e slot) = meaningOf graphs (E.node e slot')) :
    E.Fits graphs e row (slots1 ++ slots2) where
  ident slot hslot := (mem_append.1 hslot).elim (h1.ident slot) (h2.ident slot)
  bound slot hslot := (mem_append.1 hslot).elim (h1.bound slot) (h2.bound slot)
  repeated slot hslot slot' hslot' c hc hc' := by
    rcases mem_append.1 hslot with hs | hs <;> rcases mem_append.1 hslot' with hs' | hs'
    · exact h1.repeated slot hs slot' hs' c hc hc'
    · exact hsame slot hs slot' hs' c hc hc'
    · exact (hsame slot' hs' slot hs c hc' hc).symm
    · exact h2.repeated slot hs slot' hs' c hc hc'

theorem emitSlot_eq (E : TripleEmitter Lit V B) (e : RelEntry Int) (slot : Slot) (row : LocalTerms V B) :
    E.emitSlot e slot row = E.emitTerm (E.triple.term slot) (e.slotId slot) row := by
  cases slot <;> rfl

theorem fits_singleton : E.Fits graphs e row [slot] ↔
    (∀ iri, E.triple.term slot = .iri iri → meaningOf graphs (E.node e slot) = some (.iri iri)) ∧
    ∀ c, E.column slot = some c → ∀ v, row.lookup c = some v → v.Is graphs (E.node e slot) := by
  refine ⟨fun h => ⟨h.ident slot (by simp), fun c hc v => h.bound slot (by simp) c v hc⟩, fun h => ⟨?_, ?_, by simp⟩⟩
  · simpa using h.1
  · intro slot' hslot' c v hc
    cases mem_singleton.1 hslot'
    exact h.2 c hc v

theorem fits_iri {iri : Bytes} (hterm : E.triple.term slot = .iri iri) :
    E.Fits graphs e row [slot] ↔ meaningOf graphs (E.node e slot) = some (.iri iri) := by
  rw [fits_singleton, column, hterm]
  simp [Sparql.Term.column]

theorem fits_column (hc : E.column slot = some c) :
    E.Fits graphs e row [slot] ↔ ∀ v, row.lookup c = some v → v.Is graphs (E.node e slot) := by
  have hterm iri : E.triple.term slot ≠ .iri iri := fun h => by
    rw [column, h] at hc
    cases hc
  simp [fits_singleton, hterm, hc]

open scoped Classical in
/-- A column of the pattern, when the comparison it asks for is right. -/
theorem finish_eq (hc : E.column slot = some c)
    (hcmp : ∀ v, row.lookup c = some v → E.Compares graphs v (e.slotId slot).toNat) :
    E.finish c (e.slotId slot).toNat row = .ok (E.matched graphs e [slot] row) := by
  have hbind : E.bindSlots e [slot] row = Assoc.emplace row c (E.wrapNode (e.slotId slot).toNat) := by
    show E.bindSlot e row slot = _
    rw [bindSlot, hc]
  unfold finish matched
  rw [hbind]
  cases hrow : row.lookup c with
  | none => rw [if_pos ((fits_column hc).2 (by simp [hrow]))]
  | some v =>
    obtain ⟨b, hb, hiff⟩ := hcmp v hrow
    have hkept : Assoc.emplace row c (E.wrapNode (e.slotId slot).toNat) = row := by
      rw [Assoc.emplace, hrow]
      rfl
    rw [hkept]
    show (TypedVariant.cmp E.lib E.heap .eq (E.wrapNode (e.slotId slot).toNat) v >>= fun c =>
      pure (if c = some true then some row else none)) = _
    rw [hb]
    refine congrArg Except.ok (if_congr (hiff.trans ?_) rfl rfl)
    rw [fits_column hc, hrow]
    simp [node]

/-- Every value of the row is one. -/
def Values (E : TripleEmitter Lit V B) (graphs : Nat → Option RdfGraph) (row : LocalTerms V B) : Prop :=
  ∀ c v, row.lookup c = some v → RowValue graphs E.heap v

theorem Values.bindSlot (h : E.Values graphs row) (hedge : E.Valid graphs e) (slot : Slot) :
    E.Values graphs (E.bindSlot e row slot) := by
  intro c v hv
  rcases lookup_bindSlot.1 hv with hv | ⟨-, -, rfl⟩
  · exact h c v hv
  · obtain ⟨k, hk, -⟩ := hedge.nodes slot
    exact .nodeRef _ (isSome_of_eq_some hk)

section
variable (hrt : Runtime graphs E.heap) (hg : graphs E.address = some E.graph) (hedge : E.Valid graphs e)
include hrt hg hedge

/-- The slots are matched one after the other, each with what the ones before
it bound. -/
theorem fits_cons (hlast : ∀ slot' ∈ slots, slot ≠ .object) : E.Fits graphs e row (slot :: slots) ↔
    E.Fits graphs e row [slot] ∧ E.Fits graphs e (E.bindSlot e row slot) slots := by
  have hwrap slot' (hslot' : slot' ∈ slots) : (E.wrapNode (e.slotId slot).toNat).Is graphs (E.node e slot') ↔
      meaningOf graphs (E.node e slot) = meaningOf graphs (E.node e slot') := by
    obtain ⟨k, hk, hres⟩ := hedge.nodes slot
    exact is_wrapNode hrt hg hk (hres (hlast slot' hslot'))
  constructor
  · intro h
    have hrest := h.of_subset (subset_cons_self slot slots)
    refine ⟨h.of_subset (by simp), hrest.ident, fun slot' hslot' c v hc hv => ?_, hrest.repeated⟩
    rcases lookup_bindSlot.1 hv with hv | ⟨-, hc', rfl⟩
    · exact hrest.bound slot' hslot' c v hc hv
    · exact (hwrap slot' hslot').2 (h.repeated slot (by simp) slot' (by simp [hslot']) c hc' hc)
  · rintro ⟨h1, h2⟩
    have hrest : E.Fits graphs e row slots :=
      ⟨h2.ident, fun slot' hslot' c v hc hv => h2.bound slot' hslot' c v hc (lookup_bindSlot.2 (.inl hv)), h2.repeated⟩
    refine h1.append hrest fun s hs slot' hslot' c hc hc' => ?_
    cases mem_singleton.1 hs
    cases hrow : row.lookup c with
    | some v => exact is_unique (h1.bound slot hs c v hc hrow) (hrest.bound slot' hslot' c v hc' hrow)
    | none =>
      exact (hwrap slot' hslot').1 (h2.bound slot' hslot' c _ hc' (lookup_bindSlot.2 (.inr ⟨hrow, hc, rfl⟩)))

open scoped Classical in
/-- **One slot.** -/
theorem emitSlot_ok
    (hcmp : ∀ c v, E.column slot = some c → row.lookup c = some v → E.Compares graphs v (e.slotId slot).toNat) :
    E.emitSlot e slot row = .ok (E.matched graphs e [slot] row) := by
  rw [emitSlot_eq]
  cases hterm : E.triple.term slot with
  | iri iri =>
    have hbind : E.bindSlots e [slot] row = row := by
      show E.bindSlot e row slot = row
      rw [bindSlot, column, hterm]
      rfl
    rw [matched, hbind]
    refine congrArg Except.ok (if_congr ?_ rfl rfl)
    exact (createIdentifier_iff hrt hg (hedge.nonneg slot)).trans (fits_iri hterm).symm
  | var _ | blankNode _ =>
    have hcol := congrArg Sparql.Term.column hterm
    exact finish_eq hcol fun v => hcmp _ v hcol

open scoped Classical in
/-- **The slots of an edge**, of which only the object can be compared
wrong. -/
theorem emitSlots_ok (hrow : E.Values graphs row) (hlast : slots.Pairwise fun s _ => s ≠ .object)
    (hobj : ∀ pre, slots = pre ++ [.object] → E.Fits graphs e row pre → ∀ c v, E.column .object = some c →
      row.lookup c = some v → E.Compares graphs v (e.slotId .object).toNat) :
    E.emitSlots e slots row = .ok (E.matched graphs e slots row) := by
  induction slots generalizing row with
  | nil => exact (congrArg Except.ok (if_pos ⟨by simp, by simp, by simp⟩)).symm
  | cons slot slots ih =>
    obtain ⟨hne, hlast⟩ := pairwise_cons.1 hlast
    have hslot : E.emitSlot e slot row = .ok (E.matched graphs e [slot] row) := by
      refine emitSlot_ok hrt hg hedge fun c v hc hv => ?_
      by_cases hs : slot = .object
      · -- The object comes last.
        subst hs
        have hnil : slots = [] := eq_nil_iff_forall_not_mem.2 fun s hmem => hne s hmem rfl
        exact hobj [] (by rw [hnil]; rfl) ⟨by simp, by simp, by simp⟩ c v hc hv
      · obtain ⟨k, hk, hres⟩ := hedge.nodes slot
        exact compares_resource hrt hk (hres hs) (hrow c v hv)
    have hcons : E.Fits graphs e row _ ↔ _ := fits_cons hrt hg hedge hne
    rw [emitSlots, hslot]
    by_cases hfits : E.Fits graphs e row [slot]
    · rw [matched, if_pos hfits]
      show E.emitSlots e slots (E.bindSlot e row slot) = _
      rw [ih (hrow.bindSlot hedge slot) hlast]
      · refine congrArg Except.ok (if_congr ?_ rfl rfl)
        rw [hcons, and_iff_right hfits]
      · intro pre hpre hfits' c v hc hv
        have hs : slot ≠ .object := hne .object (by rw [hpre]; simp)
        rcases lookup_bindSlot.1 hv with hv | ⟨-, -, rfl⟩
        · refine hobj (slot :: pre) (by rw [hpre]; rfl) ?_ c v hc hv
          exact (fits_cons hrt hg hedge fun _ _ => hs).2 ⟨hfits, hfits'⟩
        · obtain ⟨k, hk, -⟩ := hedge.nodes .object
          obtain ⟨k', hk', hres⟩ := hedge.nodes slot
          exact compares_to_resource hrt hk hk' (hres hs)
    · rw [matched, if_neg hfits, matched, if_neg fun h => hfits (hcons.1 h).1]
      rfl

end

theorem emitEdges_ok {edges : List Int}
    (h : ∀ ptr ∈ edges, E.emitSlots (E.edge ptr) slots row = .ok (E.matched graphs (E.edge ptr) slots row)) :
    E.emitEdges slots row edges =
      .ok ((edges.map E.edge).filterMap fun e => (E.matched graphs e slots row).map (E.emitTruthDegree e)) := by
  induction edges with
  | nil => rfl
  | cons ptr edges ih =>
    have hrest := ih fun ptr hptr => h ptr (by simp [hptr])
    simp only [emitEdges, h ptr (by simp), hrest]
    cases hf : E.matched graphs (E.edge ptr) slots row <;> simp [hf, Except.mapError, pure, Except.pure]

end TripleEmitter

end GengoDB
