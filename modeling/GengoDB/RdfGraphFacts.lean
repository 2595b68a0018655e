/-
Interning in an RDF graph. In every state `addTriple` calls reach from an
empty graph there is one list of term keys, by node id, that the dictionary,
the node table, the property records and the cache of literals all describe
(`Interned`); a call only appends to it. Hence ids are equal exactly when the
keys are, and what an id means never changes (`addTriples_consistent`).
-/
import Mathlib.Data.List.TakeWhile
import GengoDB.RdfStore

namespace GengoDB

open Option UInt32

open Assoc (getElem?_append_singleton_iff getElem?_of_isPrefix idxOf?_eq_some_iff_getElem? nodup_append_singleton
  nodup_getElem?_inj)
open Codec List
open PropertyStore (SameRels)

/-! ## Keys and node identifiers -/

variable {k : TermKey}

namespace TermKey

/-- A label keeps its bytes as a string that ends at the first zero. -/
def Clean : TermKey → Prop
  | .bnode label => 0 ∉ label
  | _ => True

theorem takeWhile_ne_zero {label : Bytes} (h : 0 ∉ label) : label.takeWhile (· ≠ 0) = label :=
  takeWhile_eq_self_iff.2 fun c hc => by simpa using fun h0 : c = 0 => h (h0 ▸ hc)

/-- Resources have identifiers of their own. -/
theorem nodeId_inj {k' : TermKey} (hk : k.isLiteral = false) (hc : k.Clean) (hc' : k'.Clean)
    (h : k'.nodeId = k.nodeId) : k' = k := by
  cases k with
  | iri a => cases k' <;> simp_all [nodeId, NodeId.ofIri, NodeId.ofBlank, NodeId.literal]
  | bnode a =>
    cases k' with
    | bnode b =>
      have hlocal := congrArg NodeId.localId h
      simp only [nodeId, NodeId.ofBlank, takeWhile_ne_zero hc, takeWhile_ne_zero hc'] at hlocal
      rw [hlocal]
    | _ => simp [nodeId, NodeId.ofIri, NodeId.ofBlank, NodeId.literal] at h
  | literal d a => cases hk

theorem idxOf?_nodeId (hk : k.isLiteral = false) (hc : k.Clean) {keys : List TermKey}
    (hkeys : ∀ k' ∈ keys, k'.Clean) : (keys.map nodeId).idxOf? k.nodeId = keys.idxOf? k := by
  induction keys with
  | nil => rfl
  | cons k' keys ih =>
    have heq : (k'.nodeId == k.nodeId) = (k' == k) := by
      rw [Bool.eq_iff_iff, beq_iff_eq, beq_iff_eq]
      exact ⟨nodeId_inj hk hc (hkeys k' (by simp)), congrArg nodeId⟩
    rw [map_cons, idxOf?_cons, idxOf?_cons, heq, ih fun k'' hk'' => hkeys k'' (by simp [hk''])]

end TermKey

theorem Term.key_clean {t : Term} (h : t.key = some k) : k.Clean := by
  cases t with
  | iri a => cases h; trivial
  | bnode label => cases h; exact label.noZero
  | literal l =>
    obtain ⟨enc, -, rfl⟩ := map_eq_some_iff.1 h
    trivial

theorem TermKey.Clean.exists_term (h : k.Clean) (hk : k.isLiteral = false) : ∃ t : Term, t.key = some k := by
  cases k with
  | iri a => exact ⟨.iri a, rfl⟩
  | bnode label => exact ⟨.bnode ⟨label, h⟩, rfl⟩
  | literal d a => cases hk

/-- How many nodes a term can ask for. -/
def Term.cost : Term → Nat
  | .literal _ => 2
  | _ => 1

/-- The predicate is an IRI, the subject no literal. -/
def Triple.WellPlaced (t : Triple) : Prop :=
  (∃ a, t.predicate = .iri a) ∧ ∀ l, t.subject ≠ .literal l

/-! ## The invariant -/

namespace RdfGraph

/-- The nodes of the graph are the terms `keys`, by id: so the dictionary and
the storage say. -/
structure Described (g : RdfGraph) (keys : List TermKey) : Prop where
  nodup : keys.Nodup
  terms : ∀ k ∈ keys, ∃ t : Term, t.key = some k
  dict : g.nodes.idToNode = keys.map TermKey.nodeId
  canonical : g.nodes.Canonical
  store : g.store.Holds keys.length keys

/-- The cache knows the literals, too. -/
structure Interned (g : RdfGraph) (keys : List TermKey) : Prop extends g.Described keys where
  cache : ∀ data dt id, g.literalNodes.lookup (data, dt) = some id ↔
    ∃ datatype, keys[dt]? = some (.iri datatype) ∧ keys[id]? = some (.literal datatype data)

/-- A graph without its contents. -/
def frame (g : RdfGraph) : RdfGraph :=
  { g with storage := { g.storage with storage := .create 0 0 0 }, nodes := .empty, literalNodes := [] }

/-- `g'` has the nodes of `g` and at most `c` more; the relationships are the
same. -/
structure Grown (g : RdfGraph) (keys : List TermKey) (c : Nat) (g' : RdfGraph) (keys' : List TermKey) : Prop where
  interned : g'.Interned keys'
  old : keys <+: keys'
  length : keys'.length ≤ keys.length + c
  rels : SameRels g.store g'.store
  cap : g'.store.graph.nodePool.cap = g.store.graph.nodePool.cap
  frame : g'.frame = g.frame

/-- The properties and their values are the same. -/
structure SameProps (g g' : RdfGraph) : Prop where
  pool : g'.store.propPool = g.store.propPool
  data : g'.store.propData = g.store.propData

variable {g g' g'' : RdfGraph} {keys keys' keys'' : List TermKey} {k : TermKey} {id : Nat}
  {fileName sourceFileName : String} {iri : Bytes} {nodeCapacity relCapacity propCapacity : Int} {s : PropertyStore}
  {l : Literal} {t : Triple} {ids : TripleIds}

theorem interned_create (hn : IsCapacity nodeCapacity) (hr : IsCapacity relCapacity) (hp : IsCapacity propCapacity) :
    (create fileName iri sourceFileName nodeCapacity relCapacity propCapacity).Interned [] where
  nodup := .nil
  terms := by simp
  dict := rfl
  canonical := NodeIdDict.canonical_empty
  store := PropertyStore.holds_create hn hr hp
  cache := by simp [create]

theorem Interned.grown (h : g.Interned keys) (c : Nat) : Grown g keys c g keys :=
  ⟨h, prefix_refl _, Nat.le_add_right _ _, .refl _, rfl, rfl⟩

theorem Grown.trans {c c' : Nat} (h : Grown g keys c g' keys') (h' : Grown g' keys' c' g'' keys'') :
    Grown g keys (c + c') g'' keys'' where
  interned := h'.interned
  old := h.old.trans h'.old
  length := by have := h.length; have := h'.length; omega
  rels := h.rels.trans h'.rels
  cap := h'.cap.trans h.cap
  frame := h'.frame.trans h.frame

/-- A node keeps its key. -/
theorem Grown.getElem? {c : Nat} (h : Grown g keys c g' keys') (hid : keys[id]? = some k) : keys'[id]? = some k :=
  getElem?_of_isPrefix h.old hid

section

variable (h : g.Described keys)
include h

theorem Described.size : g.nodes.size = keys.length := by
  simp [NodeIdDict.size, h.dict]

theorem Described.clean (hk : k ∈ keys) : k.Clean := by
  obtain ⟨t, ht⟩ := h.terms k hk
  exact t.key_clean ht

/-- The datatype of a stored literal is a node. -/
theorem Described.datatype_mem {datatype data : Bytes}
    (hid : keys[id]? = some (.literal datatype data)) : .iri datatype ∈ keys := by
  obtain ⟨dt, p, hst⟩ := h.store.literal id datatype data hid
  exact mem_of_getElem? hst.datatypeNode

theorem Described.get (hid : keys[id]? = some k) : g.nodes.get id = some k.nodeId := by
  rw [NodeIdDict.get, h.dict, getElem?_map, hid]
  rfl

/-- A stored literal is found under its bytes and its datatype's node. -/
theorem Described.literalKeyFor {datatype data : Bytes} (hid : keys[id]? = some (.literal datatype data)) :
    ∃ dt, keys[dt]? = some (.iri datatype) ∧ g.literalKeyFor id = some (data, dt) := by
  obtain ⟨dt, p, hst⟩ := h.store.literal id datatype data hid
  refine ⟨dt, hst.datatypeNode, ?_⟩
  have hdt : (ofNat dt).toNat = dt := by
    have hlt := (List.getElem?_eq_some_iff.1 hst.datatypeNode).1
    have hcap := h.store.lt_cap
    exact UInt32.toNat_ofNat_of_lt' (by have : UInt32.size = 2 ^ 32 := rfl; omega)
  have hiri : ((g.nodes.get dt).bind (·.iri)).getD [] = datatype := by
    rw [h.get hst.datatypeNode]
    rfl
  unfold RdfGraph.literalKeyFor
  simp [hst.payload, hst.nonneg, hst.lt, hst.key, hdt, hiri, hst.value]

/-! ## Resources -/

/-- The graph with one more node in the dictionary and in the store. -/
def withNode (g : RdfGraph) (nid : NodeId) (s : PropertyStore) : RdfGraph :=
  ({ g with nodes := (g.nodes.insert nid).2 } : RdfGraph).setStore s

theorem Described.ensureNode : g.ensureNode = some g := by
  rw [RdfGraph.ensureNode]
  rw [h.store.nodeMark, h.size]
  simp

theorem Described.ensureNode_insert (nid : NodeId) :
    ({ g with nodes := (g.nodes.insert nid).2 } : RdfGraph).ensureNode = g.store.addNode.map (g.withNode nid) := by
  have hmark : ({ g with nodes := (g.nodes.insert nid).2 }.store.graph.nodePool.mark).toNat <
      (g.nodes.insert nid).2.size := by
    have hm : ({ g with nodes := (g.nodes.insert nid).2 } : RdfGraph).store.graph.nodePool.mark = keys.length :=
      h.store.nodeMark
    have hs : (g.nodes.insert nid).2.size = keys.length + 1 := by simp [NodeIdDict.insert, NodeIdDict.size, h.dict]
    omega
  exact if_pos hmark

theorem Described.addNode_isSome (hroom : (keys.length : Int) < g.store.graph.nodePool.cap) :
    ∃ s, g.store.addNode = some s := by
  have hpool : g.store.graph.nodePool.HasRoom := .inr (by rw [h.store.nodeMark]; exact hroom)
  obtain ⟨id, graph, hgraph⟩ := Graph.addNode_isSome hpool graphNone
  exact ⟨_, map_eq_some_iff.2 ⟨_, PropertyGraph.addNode_eq_some.2 ⟨graph, hgraph, rfl⟩, rfl⟩⟩

variable (hk : k.isLiteral = false) (hc : k.Clean)
include hk hc

theorem Described.lookup : g.nodes.nodeToId.lookup k.nodeId = keys.idxOf? k := by
  rw [h.canonical, h.dict, TermKey.idxOf?_nodeId hk hc fun _ => h.clean]

/-- A resource is found under its identifier. -/
theorem Described.getSafe_iff : g.nodes.getSafe k.nodeId = some id ↔ keys[id]? = some k := by
  rw [NodeIdDict.getSafe, h.lookup hk hc, idxOf?_eq_some_iff_getElem? h.nodup]

theorem Described.resolveResource_of_mem (hid : keys[id]? = some k) : g.resolveResource k.nodeId = some (id, g) := by
  have hfound : g.nodes.nodeToId.lookup k.nodeId = some id := (h.getSafe_iff hk hc).2 hid
  rw [resolveResource, NodeIdDict.getOrInsert, hfound]
  show (g.ensureNode.map fun g => (id, g)) = some (id, g)
  rw [h.ensureNode]
  rfl

theorem Described.resolveResource_of_notMem (hnew : k ∉ keys) : g.resolveResource k.nodeId =
    g.store.addNode.map fun s => (keys.length, g.withNode k.nodeId s) := by
  have hidx : keys.idxOf? k = none := idxOf?_eq_none_iff.2 hnew
  rw [resolveResource, NodeIdDict.getOrInsert, h.lookup hk hc, hidx]
  show (({ g with nodes := (g.nodes.insert k.nodeId).2 }.ensureNode).map fun g' => (g.nodes.size, g')) = _
  rw [h.ensureNode_insert, h.size, Option.map_map]
  rfl

end

theorem addNode_fields {s' : PropertyStore} (h : s.addNode = some s') :
    s'.graph.nodePool.cap = s.graph.nodePool.cap ∧ s'.propPool = s.propPool ∧ s'.propData = s.propData := by
  obtain ⟨id, q, hq, rfl⟩ := PropertyStore.addNode_eq_some h
  exact ⟨Pool.alloc_cap hq, rfl, rfl⟩

section
variable (h : g.Interned keys) (hk : k.isLiteral = false) (hc : k.Clean)
include h hk hc

/-- **A new resource** is the next node. -/
theorem Interned.pushResource (hnew : k ∉ keys) (hs : g.store.addNode = some s) :
    Grown g keys 1 (g.withNode k.nodeId s) (keys ++ [k]) ∧ SameProps g (g.withNode k.nodeId s) := by
  obtain ⟨hstore, hrels⟩ := h.store.addNode hs
  obtain ⟨hcap, hpool, hdata⟩ := addNode_fields hs
  refine ⟨⟨⟨⟨nodup_append_singleton h.nodup hnew, ?_, ?_, h.canonical.insert _, ?_⟩, ?_⟩, prefix_append _ _,
    by simp, hrels, hcap, rfl⟩, hpool, hdata⟩
  · exact forall_mem_append.2 ⟨h.terms, forall_mem_singleton.2 (hc.exists_term hk)⟩
  · show g.nodes.idToNode ++ [k.nodeId] = _
    rw [h.dict, map_append]
    rfl
  · rw [length_append]
    exact hstore.pushResource (Nat.lt_succ_self _) hk
  · intro data dt id
    show g.literalNodes.lookup (data, dt) = some id ↔ _
    rw [h.cache]
    simp only [getElem?_append_singleton_iff]
    constructor
    · intro ⟨datatype, hdt, hid⟩
      exact ⟨datatype, .inl hdt, .inl hid⟩
    · intro ⟨datatype, hdt, hid⟩
      obtain hid | ⟨-, rfl⟩ := hid
      · obtain hdt | ⟨-, rfl⟩ := hdt
        · exact ⟨datatype, hdt, hid⟩
        · -- The datatype of a literal that is there is not new.
          exact absurd (h.datatype_mem hid) hnew
      · cases hk

/-- **`resolve` of a resource.** -/
theorem Interned.resolveResource (hrun : g.resolveResource k.nodeId = some (id, g')) :
    ∃ keys', Grown g keys 1 g' keys' ∧ SameProps g g' ∧ keys'[id]? = some k := by
  by_cases hmem : k ∈ keys
  · obtain ⟨i, hi⟩ := mem_iff_getElem?.1 hmem
    rw [h.resolveResource_of_mem hk hc hi] at hrun
    cases hrun
    exact ⟨keys, h.grown 1, ⟨rfl, rfl⟩, hi⟩
  · rw [h.resolveResource_of_notMem hk hc hmem] at hrun
    obtain ⟨s, hs, hrun⟩ := map_eq_some_iff.1 hrun
    cases hrun
    obtain ⟨hgrown, hprops⟩ := h.pushResource hk hc hmem hs
    exact ⟨keys ++ [k], hgrown, hprops, by simp⟩

theorem Interned.resolveResource_isSome (hroom : (keys.length : Int) < g.store.graph.nodePool.cap) :
    ∃ r, g.resolveResource k.nodeId = some r := by
  by_cases hmem : k ∈ keys
  · obtain ⟨i, hi⟩ := mem_iff_getElem?.1 hmem
    exact ⟨_, h.resolveResource_of_mem hk hc hi⟩
  · obtain ⟨s, hs⟩ := h.addNode_isSome hroom
    exact ⟨_, (h.resolveResource_of_notMem hk hc hmem).trans (congrArg _ hs)⟩

end

/-! ## Literals -/

/-- A literal that can be stored, and the room for its value. -/
def Ready (g : RdfGraph) (l : Literal) : Prop :=
  g.store.propPool.mark < g.store.propPool.cap ∧
    ∃ enc, l.encode = some enc ∧ (g.store.propData.storeValue enc).isSome = true

theorem SameProps.ready (h : SameProps g g') (hl : g.Ready l) : g'.Ready l := by
  rw [Ready, h.pool, h.data]
  exact hl

section

variable {datatype : Bytes} {dt : Nat} {enc : EncodedValue}

theorem Described.insertLiteral_eq_some (h : g.Described keys) :
    g.insertLiteral datatype dt enc = some (id, g') ↔ ∃ s value d s', g.store.addNode = some s ∧
      s.propData.storeValue enc = some (value, d) ∧
      PropertyStore.addNodeProperty { s with propData := d } keys.length (ofNat dt)
        (ofNat (XsdType.fromIri (some datatype)).toInt32) value = some s' ∧
      keys.length = id ∧ (g.withNode .literal s').addLiteralNode enc.bytes dt keys.length = g' := by
  unfold insertLiteral
  simp only [bind_eq_bind, bind_eq_some_iff, Option.pure_def, Option.some.injEq, Prod.mk.injEq]
  have hsize : (g.nodes.insert .literal).1 = keys.length := h.size
  rw [h.ensureNode_insert, hsize]
  constructor
  · intro ⟨_, hnode, ⟨value, d⟩, hvalue, s', hprop, hid, hg⟩
    obtain ⟨s, hs, rfl⟩ := map_eq_some_iff.1 hnode
    exact ⟨s, value, d, s', hs, hvalue, hprop, hid, hg⟩
  · intro ⟨s, value, d, s', hs, hvalue, hprop, hid, hg⟩
    exact ⟨_, map_eq_some_iff.2 ⟨s, hs, rfl⟩, (value, d), hvalue, s', hprop, hid, hg⟩

variable (h : g.Interned keys)
include h

/-- **A new literal** is the next node. -/
theorem Interned.insertLiteral {l : Literal} (hdt : keys[dt]? = some (.iri l.datatype))
    (henc : l.encode = some enc) (hnew : .literal l.datatype enc.bytes ∉ keys)
    (hrun : g.insertLiteral l.datatype dt enc = some (id, g')) :
    Grown g keys 1 g' (keys ++ [.literal l.datatype enc.bytes]) ∧ id = keys.length := by
  obtain ⟨s, value, d, s', hs, hvalue, hprop, rfl, rfl⟩ := h.insertLiteral_eq_some.1 hrun
  obtain ⟨hstore, hrels⟩ := h.store.addNode hs
  obtain ⟨hstore', hrels'⟩ := hstore.addLiteral (Nat.lt_succ_self _) hdt (Literal.encode_fits henc) hvalue hprop
  have hcap : s'.graph.nodePool.cap = g.store.graph.nodePool.cap := by
    obtain ⟨_, _, -, rfl⟩ := PropertyStore.addNodeProperty_eq_some
      (s := { s with propData := d }) (hstore.fresh _ (Nat.le_refl _) (Nat.lt_succ_self _)) hprop
    exact (addNode_fields hs).1
  have habsent : g.literalNodes.lookup (enc.bytes, dt) = none := by
    rw [eq_none_iff_forall_not_mem]
    intro i hi
    obtain ⟨datatype', hdt', hlit⟩ := (h.cache _ _ _).1 hi
    cases hdt.symm.trans hdt'
    exact hnew (mem_of_getElem? hlit)
  refine ⟨⟨⟨⟨nodup_append_singleton h.nodup hnew, ?_, ?_, h.canonical.insert _, ?_⟩, ?_⟩, prefix_append _ _,
    by simp, hrels.trans hrels', hcap, rfl⟩, rfl⟩
  · exact forall_mem_append.2 ⟨h.terms, forall_mem_singleton.2 ⟨.literal l, map_eq_some_iff.2 ⟨enc, henc, rfl⟩⟩⟩
  · show g.nodes.idToNode ++ [.literal] = _
    rw [h.dict, map_append]
    rfl
  · rw [length_append]
    exact hstore'
  · intro data dt' id
    show (Assoc.emplace g.literalNodes (enc.bytes, dt) keys.length).lookup (data, dt') = some id ↔ _
    simp only [Assoc.lookup_emplace, getElem?_append_singleton_iff, reduceCtorEq, and_false, or_false]
    by_cases hkey : (data, dt') = (enc.bytes, dt)
    · cases hkey
      rw [habsent, if_pos rfl]
      constructor
      · intro hid
        cases hid
        exact ⟨l.datatype, hdt, .inr ⟨rfl, rfl⟩⟩
      · intro ⟨datatype', hdt', hid⟩
        cases hdt.symm.trans hdt'
        obtain hid | ⟨rfl, -⟩ := hid
        · exact absurd (mem_of_getElem? hid) hnew
        · rfl
    · rw [if_neg hkey, or_none, h.cache]
      constructor
      · intro ⟨datatype', hdt', hid⟩
        exact ⟨datatype', hdt', .inl hid⟩
      · intro ⟨datatype', hdt', hid⟩
        obtain hid | ⟨rfl, he⟩ := hid
        · exact ⟨datatype', hdt', hid⟩
        · -- Equal datatypes are one node.
          cases he
          exact absurd (by rw [nodup_getElem?_inj h.nodup hdt' hdt]) hkey

theorem Interned.insertLiteral_isSome {u : UInt32} {d : PropertyData}
    (hroom : (keys.length : Int) < g.store.graph.nodePool.cap) (hprops : g.store.propPool.mark < g.store.propPool.cap)
    (hvalue : g.store.propData.storeValue enc = some (u, d)) : ∃ r, g.insertLiteral datatype dt enc = some r := by
  obtain ⟨s, hs⟩ := h.addNode_isSome hroom
  obtain ⟨-, hpool, hdata⟩ := addNode_fields hs
  obtain ⟨s', hs'⟩ := PropertyStore.addNodeProperty_isSome (s := { s with propData := d }) (.inr (hpool.symm ▸ hprops))
    keys.length (ofNat dt) (ofNat (XsdType.fromIri (some datatype)).toInt32) u
  exact ⟨_, h.insertLiteral_eq_some.2 ⟨s, u, d, s', hs, hdata ▸ hvalue, hs', rfl, rfl⟩⟩

/-- **`resolve` of a literal**: its datatype's node, then its own. -/
theorem Interned.resolveLiteral (hrun : g.resolveLiteral l = some (id, g')) :
    ∃ enc keys', l.encode = some enc ∧ Grown g keys 2 g' keys' ∧ keys'[id]? = some (.literal l.datatype enc.bytes) := by
  obtain ⟨enc, henc, hrun⟩ := bind_eq_some_iff.1 hrun
  obtain ⟨⟨dt, g1⟩, hiri, hrun⟩ := bind_eq_some_iff.1 hrun
  obtain ⟨keys1, hg1, -, hdt⟩ := h.resolveResource (k := .iri l.datatype) rfl trivial hiri
  simp only at hrun
  split at hrun
  · next i hi =>
    cases hrun
    obtain ⟨datatype, hdt', hid⟩ := (hg1.interned.cache _ _ _).1 hi
    cases hdt.symm.trans hdt'
    exact ⟨enc, keys1, henc, hg1.trans (hg1.interned.grown 1), hid⟩
  · next hnone =>
    have hnew : .literal l.datatype enc.bytes ∉ keys1 := by
      intro hmem
      obtain ⟨i, hi⟩ := mem_iff_getElem?.1 hmem
      rw [(hg1.interned.cache _ _ i).2 ⟨_, hdt, hi⟩] at hnone
      cases hnone
    obtain ⟨hg2, rfl⟩ := hg1.interned.insertLiteral hdt henc hnew hrun
    exact ⟨enc, _, henc, hg1.trans hg2, by simp⟩

theorem Interned.resolveLiteral_isSome {value : UInt32} {d : PropertyData} (henc : l.encode = some enc)
    (hroom : (keys.length : Int) + 1 < g.store.graph.nodePool.cap)
    (hprops : g.store.propPool.mark < g.store.propPool.cap)
    (hvalue : g.store.propData.storeValue enc = some (value, d)) : ∃ r, g.resolveLiteral l = some r := by
  obtain ⟨⟨dt, g1⟩, hiri⟩ := h.resolveResource_isSome (k := .iri l.datatype) rfl trivial (by omega)
  obtain ⟨keys1, hg1, hsame, hdt⟩ := h.resolveResource (k := .iri l.datatype) rfl trivial hiri
  have hresolve : g.resolveIri l.datatype = some (dt, g1) := hiri
  rw [RdfGraph.resolveLiteral, henc]
  simp only [bind_eq_bind, bind_some, hresolve]
  split
  · exact ⟨_, rfl⟩
  · refine hg1.interned.insertLiteral_isSome (u := value) (d := d) ?_ ?_ ?_
    · have := hg1.length
      rw [hg1.cap]
      omega
    · rwa [hsame.pool]
    · rwa [hsame.data]

/-- **`resolve`** gives a term's key a node, the one it has if it has one. -/
theorem Interned.resolve {t : Term} (hrun : g.resolve t = some (id, g')) :
    ∃ k keys', t.key = some k ∧ Grown g keys t.cost g' keys' ∧ keys'[id]? = some k ∧
      ((∀ l, t ≠ .literal l) → SameProps g g') := by
  cases t with
  | iri a =>
    obtain ⟨keys', hg, hsame, hid⟩ := h.resolveResource (k := .iri a) rfl trivial hrun
    exact ⟨_, keys', rfl, hg, hid, fun _ => hsame⟩
  | bnode label =>
    obtain ⟨keys', hg, hsame, hid⟩ := h.resolveResource (k := .bnode label.bytes) rfl label.noZero hrun
    exact ⟨_, keys', rfl, hg, hid, fun _ => hsame⟩
  | literal l =>
    obtain ⟨enc, keys', henc, hg, hid⟩ := h.resolveLiteral hrun
    exact ⟨_, keys', map_eq_some_iff.2 ⟨enc, henc, rfl⟩, hg, hid, fun hne => absurd rfl (hne l)⟩

/-- A term that is there is found. -/
theorem Interned.resolve_of_getElem? {t : Term} (ht : t.key = some k) (hid : keys[id]? = some k) :
    g.resolve t = some (id, g) := by
  cases t with
  | iri a =>
    cases ht
    exact h.resolveResource_of_mem (k := .iri a) rfl trivial hid
  | bnode label =>
    cases ht
    exact h.resolveResource_of_mem (k := .bnode label.bytes) rfl label.noZero hid
  | literal l =>
    obtain ⟨enc, henc, rfl⟩ := map_eq_some_iff.1 ht
    obtain ⟨dt, hdt⟩ := mem_iff_getElem?.1 (h.datatype_mem hid)
    have hiri : g.resolveIri l.datatype = some (dt, g) :=
      h.resolveResource_of_mem (k := .iri l.datatype) rfl trivial hdt
    have hlookup := (h.cache enc.bytes dt id).2 ⟨l.datatype, hdt, hid⟩
    simp [RdfGraph.resolve, RdfGraph.resolveLiteral, henc, hiri, hlookup]

theorem Interned.resolve_isSome {t : Term} (hroom : (keys.length : Int) + t.cost ≤ g.store.graph.nodePool.cap)
    (hlit : ∀ l, t = .literal l → g.Ready l) : ∃ r, g.resolve t = some r := by
  cases t with
  | iri a => exact h.resolveResource_isSome (k := .iri a) rfl trivial (Int.lt_of_add_one_le hroom)
  | bnode label =>
    exact h.resolveResource_isSome (k := .bnode label.bytes) rfl label.noZero (Int.lt_of_add_one_le hroom)
  | literal l =>
    obtain ⟨hprops, enc, henc, hvalue⟩ := hlit l rfl
    obtain ⟨⟨value, d⟩, hvalue⟩ := isSome_iff_exists.1 hvalue
    have hcost : (Term.literal l).cost = 2 := rfl
    exact h.resolveLiteral_isSome henc (by omega) hprops hvalue

end

/-! ## One triple -/

def slotCost (t : Triple) (order : List Slot) : Nat := (order.map fun slot => (t.term slot).cost).sum

variable {order : List Slot}

theorem Interned.resolveSlots {ids : List (Slot × Nat)} (h : g.Interned keys)
    (hrun : g.resolveSlots t order = some (ids, g')) : ∃ keys', Grown g keys (slotCost t order) g' keys' ∧
      ∀ e ∈ ids, ∃ k, (t.term e.1).key = some k ∧ keys'[e.2]? = some k := by
  induction order generalizing g keys ids with
  | nil =>
    cases hrun
    exact ⟨keys, h.grown 0, by simp⟩
  | cons slot order ih =>
    obtain ⟨⟨id, g1⟩, hterm, hrun⟩ := bind_eq_some_iff.1 hrun
    obtain ⟨⟨ids', g2⟩, hrest, hrun⟩ := bind_eq_some_iff.1 hrun
    cases hrun
    obtain ⟨k, keys1, hk, hg1, hid, -⟩ := h.resolve hterm
    obtain ⟨keys2, hg2, hids⟩ := ih hg1.interned hrest
    exact ⟨keys2, hg1.trans hg2, forall_mem_cons.2 ⟨⟨k, hk, hg2.getElem? hid⟩, hids⟩⟩

/-- With the object the only literal and room for all, the terms are
resolved. -/
theorem Interned.resolveSlots_isSome (h : g.Interned keys) (hnd : order.Nodup)
    (hroom : (keys.length : Int) + slotCost t order ≤ g.store.graph.nodePool.cap)
    (hlit : ∀ slot ∈ order, ∀ l, t.term slot = .literal l → slot = .object ∧ g.Ready l) :
    ∃ ids g', g.resolveSlots t order = some (ids, g') ∧ ids.map (·.1) = order := by
  induction order generalizing g keys with
  | nil => exact ⟨[], g, rfl, rfl⟩
  | cons slot order ih =>
    obtain ⟨hslot, hnd⟩ := nodup_cons.1 hnd
    have hcost : slotCost t (slot :: order) = (t.term slot).cost + slotCost t order := rfl
    obtain ⟨⟨id, g1⟩, hterm⟩ := h.resolve_isSome (by omega)
      fun l hl => (hlit slot (by simp) l hl).2
    obtain ⟨k, keys1, -, hg1, -, hsame⟩ := h.resolve hterm
    have hlen := hg1.length
    obtain ⟨ids, g2, hrest, hids⟩ := ih hg1.interned hnd (by rw [hg1.cap]; omega) (by
      intro slot' hslot' l hl
      obtain ⟨rfl, hready⟩ := hlit slot' (by simp [hslot']) l hl
      refine ⟨rfl, (hsame fun l' hl' => ?_).ready hready⟩
      -- The object is still to come, so this slot is no literal.
      obtain ⟨rfl, -⟩ := hlit slot (by simp) l' hl'
      exact hslot hslot')
    refine ⟨(slot, id) :: ids, g2, ?_, by simp [hids]⟩
    rw [RdfGraph.resolveSlots, hterm]
    simp [hrest]

/-- What is computed only for a triple with its terms in place. -/
theorem ofPlaced_eq_some {α : Type} (t : Triple) (x : Option α) (r : α) : (match t.predicate, t.subject with
      | .iri _, .iri _ | .iri _, .bnode _ => x
      | _, _ => none) = some r ↔ t.WellPlaced ∧ x = some r := by
  unfold Triple.WellPlaced
  split
  · next hp hs => simp [hp, hs]
  · next hp hs => simp [hp, hs]
  · next hiri hbnode =>
    refine ⟨nofun, fun ⟨⟨⟨a, ha⟩, hs⟩, _⟩ => ?_⟩
    cases hsub : t.subject with
    | iri b => exact absurd hsub (hiri a b ha)
    | bnode b => exact absurd hsub (hbnode a b ha)
    | literal l => exact absurd hsub (hs l)

/-- What `addTriple` does. -/
theorem addTriple_eq_some :
    g.addTriple order t = some (ids, g') ↔ t.WellPlaced ∧ ∃ all g1 rel s, g.resolveSlots t order = some (all, g1) ∧
      (∀ slot, all.lookup slot = some (ids.id slot)) ∧
      g1.store.addRelationship ids.subject ids.object (ofNat ids.predicate) = some (rel, s) ∧
      g1.setStore (s.setRelPayload rel (if g1.fuzzy then t.truth else one32).toInt) = g' := by
  refine (ofPlaced_eq_some t _ _).trans (and_congr_right fun _ => ?_)
  simp only [bind_eq_bind, bind_eq_some_iff, Option.pure_def, Option.some.injEq, Prod.mk.injEq]
  constructor
  · intro ⟨⟨all, g1⟩, hslots, subject, hs, object, ho, predicate, hp, ⟨rel, s⟩, hrel, hids, hg⟩
    subst hids
    exact ⟨all, g1, rel, s, hslots, fun slot => by cases slot <;> assumption, hrel, hg⟩
  · intro ⟨all, g1, rel, s, hslots, hids, hrel, hg⟩
    exact ⟨(all, g1), hslots, _, hids .subject, _, hids .object, _, hids .predicate, (rel, s), hrel, rfl, hg⟩

/-- What the payload of a triple's relationship is set to. -/
def degree (g : RdfGraph) (t : Triple) : Int := (if g.fuzzy then t.truth else one32).toInt

theorem degree_of_frame (h : g'.frame = g.frame) (t : Triple) : g'.degree t = g.degree t := by
  have hfuzzy : g'.frame.fuzzy = g.frame.fuzzy := congrArg RdfGraph.fuzzy h
  show (if g'.frame.fuzzy then t.truth else one32).toInt = (if g.frame.fuzzy then t.truth else one32).toInt
  rw [hfuzzy]

/-- The `i`-th relationship is the `i`-th row, the ids and the degree of a
triple, and there are no others. -/
structure Links (g : RdfGraph) (rows : List (TripleIds × Int)) : Prop where
  mark : g.store.graph.relPool.mark = rows.length
  free : g.store.graph.relPool.free = []
  row : ∀ (i : Nat) e, rows[i]? = some e →
    (g.store.graph.rels i).link = ((e.1.subject : Int), (e.1.predicate : Int), (e.1.object : Int), e.2)

variable {rows : List (TripleIds × Int)}

theorem Links.grown {c : Nat} (h : g.Links rows) (hg : Grown g keys c g' keys') : g'.Links rows := by
  refine ⟨?_, ?_, ?_⟩
  · rw [hg.rels.relPool, h.mark]
  · rw [hg.rels.relPool, h.free]
  · rw [hg.rels.rels]
    exact h.row

/-- The nodes `keys` hold the terms of a triple. -/
def HasTerms (keys : List TermKey) (t : Triple) (ids : TripleIds) : Prop :=
  ∀ slot, ∃ k, (t.term slot).key = some k ∧ keys[ids.id slot]? = some k

/-- The type a predicate's node is stored as. -/
theorem toInt_ofNat {n : Nat} (h : n < 2 ^ 31) : (ofNat n).toInt32.toInt = n := by
  have hnat : (ofNat n).toBitVec.toNat = n := toNat_ofNat_of_lt' (h.trans (by decide))
  have hint : (ofNat n).toBitVec.toInt = n := by
    rw [BitVec.toInt_eq_toNat_of_lt (by omega), hnat]
  exact hint

/-- **One relationship** between nodes of the graph, with the payload `p`. -/
theorem Interned.link {rel p : Int} (h : g.Interned keys) (hl : g.Links rows)
    (hlt : ∀ slot, ids.id slot < keys.length) (hp : IsInt32 p)
    (hrel : g.store.addRelationship ids.subject ids.object (ofNat ids.predicate) = some (rel, s)) :
    (g.setStore (s.setRelPayload rel p)).Interned keys ∧
      (g.setStore (s.setRelPayload rel p)).Links (rows ++ [(ids, p)]) := by
  obtain ⟨hstore, rfl, hpool, hlink⟩ := h.store.addRelationship hp hl.free (h.store.inUse (hlt .subject))
    (h.store.inUse (hlt .object)) hrel
  refine ⟨{ h with store := hstore }, ?_, ?_, fun i e hi => ?_⟩
  · refine (congrArg Pool.mark hpool).trans ?_
    simp [hl.mark]
  · exact (congrArg Pool.free hpool).trans hl.free
  · refine (hlink i).trans ?_
    obtain hi | ⟨rfl, rfl⟩ := getElem?_append_singleton_iff.1 hi
    · have hlen := (List.getElem?_eq_some_iff.1 hi).1
      rw [if_neg (by rw [hl.mark]; omega), hl.row i e hi]
    · have hpred : ids.predicate < keys.length := hlt .predicate
      rw [if_pos hl.mark.symm, toInt_ofNat (hpred.trans h.store.lt_cap)]
      rfl

theorem HasTerms.lt (h : HasTerms keys t ids) (slot : Slot) : ids.id slot < keys.length := by
  obtain ⟨k, -, hk⟩ := h slot
  exact (List.getElem?_eq_some_iff.1 hk).1

/-- **One call** interns the three terms and adds one relationship. -/
theorem Interned.addTriple (h : g.Interned keys) (hl : g.Links rows) (hrun : g.addTriple order t = some (ids, g')) :
    ∃ keys', g'.Interned keys' ∧ keys <+: keys' ∧ HasTerms keys' t ids ∧ g'.Links (rows ++ [(ids, g.degree t)]) ∧
      g'.frame = g.frame := by
  obtain ⟨-, all, g1, rel, s, hslots, hids, hrel, rfl⟩ := addTriple_eq_some.1 hrun
  obtain ⟨keys', hg, hterms⟩ := h.resolveSlots hslots
  have hhas : HasTerms keys' t ids := fun slot => hterms (slot, ids.id slot) (Assoc.mem_of_lookup (hids slot))
  obtain ⟨hint, hlinks⟩ := hg.interned.link (hl.grown hg) hhas.lt (.toInt (if g1.fuzzy then t.truth else one32)) hrel
  rw [← degree_of_frame hg.frame t]
  exact ⟨keys', hint, hg.old, hhas, hlinks, hg.frame⟩

/-- Room for every node and value a triple may ask for. -/
structure Accepts (g : RdfGraph) (t : Triple) : Prop where
  placed : t.WellPlaced
  nodes : g.store.graph.nodePool.mark + (t.subject.cost + t.predicate.cost + t.object.cost : Nat) ≤
    g.store.graph.nodePool.cap
  rels : g.store.graph.relPool.mark < g.store.graph.relPool.cap
  literal : ∀ l, t.object = .literal l → g.Ready l

/-- With room, and whatever the order of evaluation, a call returns. -/
theorem Interned.addTriple_isSome (h : g.Interned keys) (ht : g.Accepts t)
    (horder : order.Perm [.subject, .predicate, .object]) : (g.addTriple order t).isSome := by
  have hcost : slotCost t order = t.subject.cost + t.predicate.cost + t.object.cost := by
    rw [slotCost, (horder.map _).sum_eq]
    simp [Triple.term, Nat.add_assoc]
  have hroom := ht.nodes
  rw [h.store.nodeMark] at hroom
  obtain ⟨⟨a, hpred⟩, hsub⟩ := ht.placed
  obtain ⟨ids, g1, hslots, hids⟩ := h.resolveSlots_isSome (horder.nodup_iff.2 (by decide))
    (by rw [hcost]; exact hroom) (by
      intro slot _ l hl
      cases slot with
      | subject => exact absurd hl (hsub l)
      | predicate => exact absurd (hpred.symm.trans hl) (by simp)
      | object => exact ⟨rfl, ht.literal l hl⟩)
  obtain ⟨keys', hg, -⟩ := h.resolveSlots hslots
  have hlookup : ∀ slot, ∃ id, ids.lookup slot = some id := by
    intro slot
    have hmem : slot ∈ ids.map (·.1) := by
      rw [hids, horder.mem_iff]
      cases slot <;> simp
    obtain ⟨e, he, rfl⟩ := mem_map.1 hmem
    have hnd : (ids.map (·.1)).Nodup := by
      rw [hids, horder.nodup_iff]
      decide
    exact ⟨e.2, (Assoc.lookup_eq_some_iff hnd).2 he⟩
  obtain ⟨subject, hs⟩ := hlookup .subject
  obtain ⟨predicate, hp⟩ := hlookup .predicate
  obtain ⟨object, ho⟩ := hlookup .object
  have hrels : g1.store.graph.relPool.HasRoom := .inr (by rw [hg.rels.relPool]; exact ht.rels)
  obtain ⟨rel, s, hrel⟩ := PropertyStore.addRelationship_isSome hrels subject object (ofNat predicate)
  exact isSome_iff_exists.2 ⟨({ subject, predicate, object }, _), addTriple_eq_some.2
    ⟨ht.placed, ids, g1, rel, s, hslots, fun slot => by cases slot <;> assumption, hrel, rfl⟩⟩

/-! ## Sequences of calls -/

theorem HasTerms.mono (h : HasTerms keys t ids) (hkeys : keys <+: keys') : HasTerms keys' t ids := by
  intro slot
  obtain ⟨k, hk, hid⟩ := h slot
  exact ⟨k, hk, getElem?_of_isPrefix hkeys hid⟩

/-- The rows of the calls that gave `ids`. -/
def rowsOf (g : RdfGraph) (calls : List (List Slot × Triple)) (ids : List TripleIds) : List (TripleIds × Int) :=
  List.zipWith (fun call t => (t, g.degree call.2)) calls ids

theorem rowsOf_of_frame (h : g'.frame = g.frame) (calls : List (List Slot × Triple)) (ids : List TripleIds) :
    g'.rowsOf calls ids = g.rowsOf calls ids := by
  simp only [rowsOf, degree_of_frame h]

variable {calls : List (List Slot × Triple)} {ids : List TripleIds}

/-- **Any calls.** -/
theorem Interned.addTriples (h : g.Interned keys) (hl : g.Links rows) (hrun : g.addTriples calls = some (ids, g')) :
    ∃ keys', g'.Interned keys' ∧ keys <+: keys' ∧ g'.Links (rows ++ g.rowsOf calls ids) ∧
      List.Forall₂ (fun call => HasTerms keys' call.2) calls ids ∧ g'.frame = g.frame := by
  induction calls generalizing g keys rows ids with
  | nil =>
    cases hrun
    exact ⟨keys, h, prefix_refl _, by simpa [rowsOf] using hl, .nil, rfl⟩
  | cons call calls ih =>
    obtain ⟨⟨id, g1⟩, hcall, hrun⟩ := bind_eq_some_iff.1 hrun
    obtain ⟨⟨all, g2⟩, hrest, hrun⟩ := bind_eq_some_iff.1 hrun
    cases hrun
    obtain ⟨keys1, h1, hold1, hterms, hl1, hframe1⟩ := h.addTriple hl hcall
    obtain ⟨keys2, h2, hold2, hl2, hall, hframe2⟩ := ih h1 hl1 hrest
    rw [rowsOf_of_frame hframe1] at hl2
    exact ⟨keys2, h2, hold1.trans hold2, by simpa [rowsOf] using hl2, .cons (hterms.mono hold2) hall,
      hframe2.trans hframe1⟩

/-- From an empty graph. -/
theorem interned_addTriples (hn : IsCapacity nodeCapacity) (hr : IsCapacity relCapacity) (hp : IsCapacity propCapacity)
    (hrun : (create fileName iri sourceFileName nodeCapacity relCapacity propCapacity).addTriples calls =
      some (ids, g)) : ∃ keys, g.Interned keys ∧ g.Links (g.rowsOf calls ids) ∧
      List.Forall₂ (fun call => HasTerms keys call.2) calls ids ∧
      g.frame = (create fileName iri sourceFileName nodeCapacity relCapacity propCapacity).frame := by
  have hlinks : (create fileName iri sourceFileName nodeCapacity relCapacity propCapacity).Links [] :=
    ⟨rfl, rfl, by simp⟩
  obtain ⟨keys, h, -, hl, hall, hframe⟩ := (interned_create hn hr hp).addTriples hlinks hrun
  rw [← rowsOf_of_frame hframe] at hl
  exact ⟨keys, h, hl, hall, hframe⟩

/-! ## What an id means -/

/-- The key of a node: a resource's from the dictionary, a literal's from its
property. -/
def meaning (g : RdfGraph) (id : Nat) : Option TermKey := do
  let node ← g.nodes.get id
  match node.type with
  | .iri => node.iri.map .iri
  | .bnode => some (.bnode node.localId)
  | .literal =>
    let (data, datatypeNode) ← g.literalKeyFor id
    let datatype ← (← g.nodes.get datatypeNode).iri
    return .literal datatype data

theorem Described.meaning (h : g.Described keys) (id : Nat) : g.meaning id = keys[id]? := by
  unfold RdfGraph.meaning
  cases hid : keys[id]? with
  | none =>
    have hget : g.nodes.get id = none := by rw [NodeIdDict.get, h.dict, getElem?_map, hid]; rfl
    simp [hget]
  | some k =>
    simp only [h.get hid, bind_eq_bind]
    cases k with
    | iri a => rfl
    | bnode label =>
      have hclean : 0 ∉ label := h.clean (mem_of_getElem? hid)
      exact congrArg (some ∘ TermKey.bnode) (TermKey.takeWhile_ne_zero hclean)
    | literal datatype data =>
      obtain ⟨dt, hdt, hkey⟩ := h.literalKeyFor hid
      simp only [hkey, h.get hdt, bind_some]
      rfl

/-! ## The result -/

/-- What holds after the calls `calls` gave the ids `ids`. -/
structure Consistent (g : RdfGraph) (calls : List (List Slot × Triple)) (ids : List TripleIds) : Prop where
  /-- The dictionary has as many nodes as the node table. -/
  size : (g.nodes.size : Int) = g.store.graph.nodePool.mark
  /-- Every call gave ids to its terms, and they mean the terms' keys. -/
  length : ids.length = calls.length
  meaning : ∀ (i : Nat) call t slot, calls[i]? = some call → ids[i]? = some t →
    (call.2.term slot).key.isSome ∧ g.meaning (t.id slot) = (call.2.term slot).key
  /-- Two terms have one id exactly when they have one key. -/
  same : ∀ (i j : Nat) call call' t t' slot slot', calls[i]? = some call → ids[i]? = some t → calls[j]? = some call' →
    ids[j]? = some t' → (t.id slot = t'.id slot' ↔ (call.2.term slot).key = (call'.2.term slot').key)
  /-- No further calls change what an id means. -/
  kept : ∀ more ids' g', g.addTriples more = some (ids', g') → ∀ id < g.nodes.size, g'.meaning id = g.meaning id
  /-- One relationship per call, with the ids of its terms. -/
  inUse : ∀ r : Int, (g.store.graph.rels r).inUse = true ↔ 0 ≤ r ∧ r < calls.length
  link : ∀ (i : Nat) call t, calls[i]? = some call → ids[i]? = some t →
    (g.store.graph.rels i).link = ((t.subject : Int), (t.predicate : Int), (t.object : Int), g.degree call.2)
  /-- A call there is room for returns. -/
  next : ∀ order t, order.Perm [.subject, .predicate, .object] → g.Accepts t → (g.addTriple order t).isSome = true

theorem Interned.consistent (h : g.Interned keys)
    (hl : g.Links (g.rowsOf calls ids)) (hall : List.Forall₂ (fun call => HasTerms keys call.2) calls ids) :
    g.Consistent calls ids := by
  have hlen := hall.length_eq
  have hterms : ∀ (i : Nat) call t slot, calls[i]? = some call → ids[i]? = some t →
      ∃ k, (call.2.term slot).key = some k ∧ keys[t.id slot]? = some k := by
    intro i call t slot hc ht
    obtain ⟨hi, rfl⟩ := List.getElem?_eq_some_iff.1 hc
    obtain ⟨hi', rfl⟩ := List.getElem?_eq_some_iff.1 ht
    exact forall₂_iff_get.1 hall |>.2 i hi hi' slot
  refine ⟨?_, hlen.symm, ?_, ?_, ?_, ?_, ?_, fun order t horder ht => h.addTriple_isSome ht horder⟩
  · rw [h.size, h.store.nodeMark]
  · intro i call t slot hc ht
    obtain ⟨k, hk, hid⟩ := hterms i call t slot hc ht
    exact ⟨by rw [hk]; rfl, by rw [h.meaning, hid, hk]⟩
  · intro i j call call' t t' slot slot' hc ht hc' ht'
    obtain ⟨k, hk, hid⟩ := hterms i call t slot hc ht
    obtain ⟨k', hk', hid'⟩ := hterms j call' t' slot' hc' ht'
    rw [hk, hk']
    constructor
    · intro he
      rw [← hid, ← hid', he]
    · intro he
      cases he
      exact nodup_getElem?_inj h.nodup hid hid'
  · intro more ids' g' hrun id hid
    obtain ⟨keys', h', hold, -⟩ := h.addTriples hl hrun
    rw [h.size] at hid
    rw [h.meaning, h'.meaning, prefix_iff_getElem?.1 hold id hid, getElem?_eq_getElem hid]
  · intro r
    obtain ⟨L, hwf⟩ := h.store.wf
    have hslot := hwf.relPool.slot r
    have hrows : (g.rowsOf calls ids).length = calls.length := by simp [rowsOf, hlen]
    rw [hl.mark, hl.free, hrows] at hslot
    simpa using hslot.symm
  · intro i call t hc ht
    exact hl.row i (t, g.degree call.2) (by simp [rowsOf, getElem?_zipWith, hc, ht])

/-- **After any `addTriple` calls on an empty graph**, each evaluating its
arguments in whatever order, dictionary and tables agree. -/
theorem addTriples_consistent {fileName sourceFileName : String} {iri : Bytes}
    {nodeCapacity relCapacity propCapacity : Int} {calls : List (List Slot × Triple)} {ids : List TripleIds}
    (hn : IsCapacity nodeCapacity) (hr : IsCapacity relCapacity) (hp : IsCapacity propCapacity)
    (hrun : (create fileName iri sourceFileName nodeCapacity relCapacity propCapacity).addTriples calls =
      some (ids, g)) : g.Consistent calls ids := by
  obtain ⟨keys, h, hl, hall, -⟩ := interned_addTriples hn hr hp hrun
  exact h.consistent hl hall

/-- `_:b <p> "1"^^<d>`. -/
def literalTriple : Triple where
  subject := .bnode ⟨ascii "b", by decide⟩
  predicate := .iri (ascii "p")
  object := .literal { datatype := ascii "d", value := .other, languageTag := [], lexicalForm := ascii "1" }
  truth := one32

theorem addTriples_consistent_twice : ∃ ids g,
    (create "g" (ascii "g") "" 8 8 8).addTriples [([.object, .subject, .predicate], literalTriple),
      ([.subject, .predicate, .object], literalTriple)] = some (ids, g) ∧
    g.Consistent [([.object, .subject, .predicate], literalTriple), ([.subject, .predicate, .object], literalTriple)]
      ids := by
  obtain ⟨⟨ids, g⟩, hrun⟩ := isSome_iff_exists.1 (show ((create "g" (ascii "g") "" 8 8 8).addTriples
    [([.object, .subject, .predicate], literalTriple), ([.subject, .predicate, .object], literalTriple)]).isSome
    by decide +kernel)
  exact ⟨ids, g, hrun, addTriples_consistent (by decide) (by decide) (by decide) hrun⟩

end RdfGraph
end GengoDB
