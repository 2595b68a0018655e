/-
Node ids across graphs (`semantics/Identifiers.h`, `.cpp`). `build` goes
through the graphs one after another and gives every node a global id: IRIs
and literals share one with equal terms of earlier graphs, a blank node always
gets a new one. The literals of a graph come after its resources, since they
are found by the global id of their datatype.

The ids given are positions in one list of global keys that only grows
(`Indexed`), which is why equal ids mean equal keys (`build_correct`).
-/
import GengoDB.RdfGraphFacts

namespace GengoDB

open List Option

open Assoc (getElem?_append_singleton_iff getElem?_of_isPrefix idxOf?_eq_some_iff_getElem? nodup_append_singleton
  nodup_getElem?_inj)

/-! ## Mappings -/

/-- `NodeIdMapping`; the global id `none` is -1. -/
structure NodeIdMapping where
  localToGlobal : List (Option Nat)
  globalToLocal : List (Option Nat × Nat)

namespace NodeIdMapping

def empty : NodeIdMapping := { localToGlobal := [], globalToLocal := [] }

variable (m : NodeIdMapping)

def insert (gid : Option Nat) : NodeIdMapping where
  localToGlobal := m.localToGlobal ++ [gid]
  globalToLocal := Assoc.emplace m.globalToLocal gid m.localToGlobal.length

/-- `get_local_safe`; `none` is -1. -/
def getLocalSafe (gid : Option Nat) : Option Nat := m.globalToLocal.lookup gid

/-- `get_global_safe`. -/
def getGlobalSafe (id : Nat) : Option Nat := (m.localToGlobal[id]?).join

def size : Nat := m.localToGlobal.length

/-- `serialize` writes the ids by node. -/
def serialize : List (Option Nat) := m.localToGlobal

def deserialize (ids : List (Option Nat)) : NodeIdMapping where
  localToGlobal := ids
  globalToLocal := ids.zipIdx.foldl (fun m e => Assoc.emplace m e.1 e.2) []

end NodeIdMapping

/-! ## The index -/

namespace GraphNodeIndex

/-- What `build` carries from graph to graph. -/
structure GlobalIds where
  nextGlobalId : Nat
  iriToGlobal : List (NodeId × Nat)
  literalToGlobal : List ((Bytes × Option Nat) × Nat)

/-- One turn of the first loop over the nodes of a graph; literals stay
-1. -/
def assignResource (st : GlobalIds) (node : NodeId) : Option Nat × GlobalIds :=
  match node.type with
  | .iri =>
    match st.iriToGlobal.lookup node with
    | some gid => (some gid, st)
    | none =>
      let gid := st.nextGlobalId
      (some gid, { st with nextGlobalId := gid + 1, iriToGlobal := Assoc.emplace st.iriToGlobal node gid })
  | .bnode => (some st.nextGlobalId, { st with nextGlobalId := st.nextGlobalId + 1 })
  | .literal => (none, st)

def assignResources (st : GlobalIds) : List NodeId → List (Option Nat) × GlobalIds
  | [] => ([], st)
  | node :: nodes =>
    let (gid, st) := assignResource st node
    let (ids, st) := assignResources st nodes
    (gid :: ids, st)

/-- One turn of the second loop. -/
def assignLiteral (g : RdfGraph) (s : List (Option Nat) × GlobalIds) (id : Nat) :
    Option (List (Option Nat) × GlobalIds) :=
  if (g.nodes.get id).map (·.type) ≠ some .literal then some s
  else do
    let (data, datatypeNode) ← g.literalKeyFor id
    let datatypeGlobalId ← s.1[datatypeNode]?
    match s.2.literalToGlobal.lookup (data, datatypeGlobalId) with
    | some gid => return (s.1.set id (some gid), s.2)
    | none =>
      let gid := s.2.nextGlobalId
      return (s.1.set id (some gid), { s.2 with
        nextGlobalId := gid + 1
        literalToGlobal := Assoc.emplace s.2.literalToGlobal (data, datatypeGlobalId) gid })

/-- The global ids of one graph. -/
def assignGraph (st : GlobalIds) (g : RdfGraph) : Option (List (Option Nat) × GlobalIds) :=
  (range g.nodes.size).foldlM (assignLiteral g) (assignResources st g.nodes.idToNode)

/-- The name a graph is indexed under. -/
def indexName (e : Bytes × RdfGraph) : Bytes := if e.1 = [] then e.2.iri else e.1

def buildFrom (st : GlobalIds) (index : List (Bytes × NodeIdMapping)) :
    List (Bytes × RdfGraph) → Option (List (Bytes × NodeIdMapping))
  | [] => some index
  | e :: rest => do
    let (ids, st) ← assignGraph st e.2
    buildFrom st (Assoc.insert index (indexName e) (ids.foldl NodeIdMapping.insert .empty)) rest

def build (graphs : List (Bytes × RdfGraph)) : Option (List (Bytes × NodeIdMapping)) :=
  buildFrom { nextGlobalId := 0, iriToGlobal := [], literalToGlobal := [] } [] graphs

/-- The index through the catalog. -/
def serialize (index : List (Bytes × NodeIdMapping)) : List (Bytes × List (Option Nat)) :=
  index.map fun e => (e.1, e.2.serialize)

def deserialize (stored : List (Bytes × List (Option Nat))) : List (Bytes × NodeIdMapping) :=
  stored.map fun e => (e.1, .deserialize e.2)

/-! ## Global keys -/

/-- What a global id stands for; a blank node only for itself. -/
inductive GlobalKey where
  | iri (identifier : Bytes)
  | bnode (graph node : Nat)
  | literal (datatype data : Bytes)

/-- The key of node `a` of the `i`-th graph. -/
def globalKey (i a : Nat) : TermKey → GlobalKey
  | .iri identifier => .iri identifier
  | .bnode _ => .bnode i a
  | .literal datatype data => .literal datatype data

/-- The ids given so far are the positions in `G`. -/
structure Indexed (st : GlobalIds) (G : List GlobalKey) : Prop where
  next : st.nextGlobalId = G.length
  nodup : G.Nodup
  iris : ∀ a gid, st.iriToGlobal.lookup (.ofIri a) = some gid ↔ G[gid]? = some (.iri a)
  literals : ∀ data dt gid, st.literalToGlobal.lookup (data, some dt) = some gid ↔
    ∃ datatype, G[dt]? = some (.iri datatype) ∧ G[gid]? = some (.literal datatype data)
  datatypes : ∀ datatype data, .literal datatype data ∈ G → .iri datatype ∈ G

/-- No blank node has an id from node `a` of the `i`-th graph on. -/
def Fresh (i a : Nat) (G : List GlobalKey) : Prop :=
  ∀ i' a', .bnode i' a' ∈ G → i' < i ∨ (i' = i ∧ a' < a)

theorem Fresh.succ {i a : Nat} {G : List GlobalKey} (h : Fresh i a G) : Fresh i (a + 1) G := by
  intro i' a' hmem
  have := h i' a' hmem
  omega

variable {st : GlobalIds} {G G' : List GlobalKey} {i a : Nat} {k : TermKey} {m : Nat} {ids : List (Option Nat)}

/-! ## One node -/

theorem Indexed.pushIri {identifier : Bytes} (h : Indexed st G) (hnew : .iri identifier ∉ G) :
    Indexed { st with
      nextGlobalId := st.nextGlobalId + 1
      iriToGlobal := Assoc.emplace st.iriToGlobal (.ofIri identifier) st.nextGlobalId } (G ++ [.iri identifier]) := by
  refine ⟨by simp [h.next], nodup_append_singleton h.nodup hnew, fun b gid => ?_, fun data dt gid => ?_, ?_⟩
  · have habsent : st.iriToGlobal.lookup (.ofIri identifier) = none := by
      rw [eq_none_iff_forall_not_mem]
      intro gid' hgid'
      exact hnew (mem_of_getElem? ((h.iris _ _).1 hgid'))
    simp only [Assoc.lookup_emplace, or_eq_some_iff, getElem?_append_singleton_iff, h.iris, h.next]
    refine or_congr_right ?_
    constructor
    · rintro ⟨_, he⟩
      split at he
      · next hb =>
        cases he
        exact ⟨rfl, by simpa [NodeId.ofIri] using hb.symm⟩
      · cases he
    · rintro ⟨hgid, he⟩
      cases he
      exact ⟨habsent, by rw [if_pos rfl, hgid]⟩
  · simp only [h.literals, getElem?_append_singleton_iff, reduceCtorEq, and_false, or_false]
    constructor
    · rintro ⟨datatype, hdt, hgid⟩
      exact ⟨datatype, .inl hdt, hgid⟩
    · rintro ⟨datatype, hdt, hgid⟩
      obtain hdt | ⟨-, he⟩ := hdt
      · exact ⟨datatype, hdt, hgid⟩
      · cases he
        exact absurd (h.datatypes _ _ (mem_of_getElem? hgid)) hnew
  · intro datatype data hmem
    simp only [mem_append, mem_singleton, reduceCtorEq, or_false] at hmem
    exact mem_append_left _ (h.datatypes _ _ hmem)

theorem Indexed.pushBnode (h : Indexed st G) (hnew : .bnode i a ∉ G) :
    Indexed { st with nextGlobalId := st.nextGlobalId + 1 } (G ++ [.bnode i a]) where
  next := by simp [h.next]
  nodup := nodup_append_singleton h.nodup hnew
  iris b gid := by simp [getElem?_append_singleton_iff, h.iris]
  literals data dt gid := by simp [getElem?_append_singleton_iff, h.literals]
  datatypes datatype data hmem := by
    simp only [mem_append, mem_singleton, reduceCtorEq, or_false] at hmem
    exact mem_append_left _ (h.datatypes _ _ hmem)

theorem Indexed.pushLiteral {datatype data : Bytes} {dt : Nat} (h : Indexed st G) (hdt : G[dt]? = some (.iri datatype))
    (hnew : .literal datatype data ∉ G) :
    Indexed { st with
      nextGlobalId := st.nextGlobalId + 1
      literalToGlobal := Assoc.emplace st.literalToGlobal (data, some dt) st.nextGlobalId }
      (G ++ [.literal datatype data]) := by
  refine ⟨by simp [h.next], nodup_append_singleton h.nodup hnew, fun b gid => ?_, fun data' dt' gid => ?_, ?_⟩
  · simp [getElem?_append_singleton_iff, h.iris]
  · have habsent : st.literalToGlobal.lookup (data, some dt) = none := by
      rw [eq_none_iff_forall_not_mem]
      intro gid' hgid'
      obtain ⟨datatype', hdt', hlit⟩ := (h.literals _ _ _).1 hgid'
      cases hdt.symm.trans hdt'
      exact hnew (mem_of_getElem? hlit)
    simp only [Assoc.lookup_emplace, or_eq_some_iff, getElem?_append_singleton_iff, h.literals, h.next,
      reduceCtorEq, and_false, or_false]
    constructor
    · intro hgid
      obtain ⟨datatype', hdt', hlit⟩ | ⟨-, he⟩ := hgid
      · exact ⟨datatype', hdt', .inl hlit⟩
      · split at he
        · next hkey =>
          cases hkey
          cases he
          exact ⟨datatype, hdt, .inr ⟨rfl, rfl⟩⟩
        · cases he
    · intro ⟨datatype', hdt', hlit⟩
      obtain hlit | ⟨hgid, he⟩ := hlit
      · exact .inl ⟨datatype', hdt', hlit⟩
      · cases he
        obtain rfl := nodup_getElem?_inj h.nodup hdt hdt'
        exact .inr ⟨habsent, by rw [if_pos rfl, hgid]⟩
  · intro datatype' data' hmem
    obtain hmem | hmem := mem_append.1 hmem
    · exact mem_append_left _ (h.datatypes _ _ hmem)
    · cases mem_singleton.1 hmem
      exact mem_append_left _ (mem_of_getElem? hdt)

/-- `o` is the id of this key. -/
def Given (G : List GlobalKey) (o : Option (Option Nat)) (k : GlobalKey) : Prop :=
  ∃ gid, o = some (some gid) ∧ G[gid]? = some k

theorem Given.mono {o : Option (Option Nat)} {k : GlobalKey} (h : Given G o k) (hG : G <+: G') : Given G' o k := by
  obtain ⟨gid, ho, hgid⟩ := h
  exact ⟨gid, ho, getElem?_of_isPrefix hG hgid⟩

/-- **One turn of the first loop.** -/
theorem Indexed.assignResource (h : Indexed st G) (hf : Fresh i a G) :
    ∃ G', Indexed (assignResource st k.nodeId).2 G' ∧ G <+: G' ∧ Fresh i (a + 1) G' ∧
      (k.isLiteral = false → Given G' (some (assignResource st k.nodeId).1) (globalKey i a k)) := by
  cases k with
  | iri identifier =>
    unfold GraphNodeIndex.assignResource
    simp only [TermKey.nodeId, show (NodeId.ofIri identifier).type = .iri from rfl]
    cases hl : st.iriToGlobal.lookup (.ofIri identifier) with
    | some gid =>
      exact ⟨G, h, prefix_refl _, hf.succ, fun _ => ⟨gid, rfl, (h.iris _ _).1 hl⟩⟩
    | none =>
      have hnew : .iri identifier ∉ G := by
        intro hmem
        obtain ⟨gid, hgid⟩ := mem_iff_getElem?.1 hmem
        simp [(h.iris identifier gid).2 hgid] at hl
      refine ⟨_, h.pushIri hnew, prefix_append _ _, ?_, fun _ => ⟨st.nextGlobalId, rfl, ?_⟩⟩
      · intro i' a' hmem
        exact hf.succ i' a' (by simpa using hmem)
      · rw [h.next]
        simp [globalKey]
  | bnode label =>
    have hnew : .bnode i a ∉ G := by
      intro hmem
      have := hf i a hmem
      omega
    refine ⟨_, h.pushBnode hnew, prefix_append _ _, ?_, fun _ => ⟨st.nextGlobalId, rfl, ?_⟩⟩
    · intro i' a' hmem
      simp only [mem_append, mem_singleton, GlobalKey.bnode.injEq] at hmem
      obtain hmem | ⟨rfl, rfl⟩ := hmem
      · exact hf.succ i' a' hmem
      · exact .inr ⟨rfl, Nat.lt_succ_self _⟩
    · rw [h.next]
      simp [globalKey]
  | literal datatype data => exact ⟨G, h, prefix_refl _, hf.succ, fun h => absurd h (by simp [TermKey.isLiteral])⟩

/-- **The first loop** gives ids to the resources. -/
theorem Indexed.assignResources (h : Indexed st G) (hf : Fresh i a G) (keys : List TermKey) :
    ∃ G', Indexed (assignResources st (keys.map TermKey.nodeId)).2 G' ∧ G <+: G' ∧ Fresh i (a + keys.length) G' ∧
      (assignResources st (keys.map TermKey.nodeId)).1.length = keys.length ∧
      ∀ b k, keys[b]? = some k → k.isLiteral = false →
        Given G' ((assignResources st (keys.map TermKey.nodeId)).1[b]?) (globalKey i (a + b) k) := by
  induction keys generalizing st G a with
  | nil => exact ⟨G, h, prefix_refl _, hf, rfl, by simp⟩
  | cons k keys ih =>
    obtain ⟨G1, h1, hG1, hf1, hk⟩ := h.assignResource (k := k) hf
    obtain ⟨G2, h2, hG2, hf2, hlen, hrest⟩ := ih h1 hf1
    refine ⟨G2, h2, hG1.trans hG2, ?_, congrArg (· + 1) hlen, fun b k' hb hres => ?_⟩
    · rw [length_cons, Nat.add_comm keys.length 1, ← Nat.add_assoc]
      exact hf2
    · cases b with
      | zero =>
        obtain rfl : k = k' := by simpa using hb
        exact (hk hres).mono hG2
      | succ b =>
        have hgiven := hrest b k' (by simpa using hb) hres
        rw [Nat.add_assoc, Nat.add_comm 1 b] at hgiven
        exact hgiven

variable {g : RdfGraph} {keys : List TermKey}

/-- The resources and the first `m` nodes have their ids. -/
structure AssignedBelow (G : List GlobalKey) (i : Nat) (keys : List TermKey) (m : Nat) (ids : List (Option Nat)) :
    Prop where
  length : ids.length = keys.length
  given : ∀ b k, keys[b]? = some k → k.isLiteral = false ∨ b < m → Given G (ids[b]?) (globalKey i b k)

theorem AssignedBelow.mono (h : AssignedBelow G i keys m ids) (hG : G <+: G') : AssignedBelow G' i keys m ids :=
  ⟨h.length, fun b k hb hm => (h.given b k hb hm).mono hG⟩

/-- The id of the next literal is written. -/
theorem AssignedBelow.set {gid : Nat} (h : AssignedBelow G i keys m ids) (hm : keys[m]? = some k)
    (hgid : G[gid]? = some (globalKey i m k)) : AssignedBelow G i keys (m + 1) (ids.set m (some gid)) := by
  have hlt : m < ids.length := h.length ▸ (List.getElem?_eq_some_iff.1 hm).1
  refine ⟨by simp [h.length], fun b k' hb hb' => ?_⟩
  rcases eq_or_ne b m with rfl | hne
  · cases hm.symm.trans hb
    exact ⟨gid, by simp [hlt], hgid⟩
  · rw [List.getElem?_set_ne hne.symm]
    exact h.given b k' hb (hb'.imp_right fun hlt => by omega)

/-- **One turn of the second loop.** -/
theorem Indexed.assignLiteral {s : List (Option Nat) × GlobalIds} (hg : g.Described keys) (h : Indexed s.2 G)
    (hs : AssignedBelow G i keys m s.1) (hm : m < keys.length) :
    ∃ s' G', assignLiteral g s m = some s' ∧ Indexed s'.2 G' ∧ G <+: G' ∧ (∀ b n, Fresh b n G → Fresh b n G') ∧
      AssignedBelow G' i keys (m + 1) s'.1 := by
  obtain ⟨k, hk⟩ : ∃ k, keys[m]? = some k := ⟨_, List.getElem?_eq_getElem hm⟩
  unfold GraphNodeIndex.assignLiteral
  rw [hg.get hk]
  have hskip : k.isLiteral = false → AssignedBelow G i keys (m + 1) s.1 := by
    intro hlit
    refine ⟨hs.length, fun b k' hb hb' => hs.given b k' hb ?_⟩
    rcases eq_or_ne b m with rfl | hne
    · cases hk.symm.trans hb
      exact .inl hlit
    · exact hb'.imp_right fun hlt => by omega
  cases k with
  | iri identifier | bnode label => exact ⟨s, G, rfl, h, prefix_refl _, fun _ _ hf => hf, hskip rfl⟩
  | literal datatype data =>
    obtain ⟨dt, hdt, hkey⟩ := hg.literalKeyFor hk
    obtain ⟨dgid, hids, hdgid⟩ := hs.given dt _ hdt (.inl rfl)
    simp only [TermKey.nodeId, NodeId.literal, map_some, ne_eq, not_true_eq_false, ↓reduceIte, hkey, hids,
      bind_eq_bind, bind_some]
    cases hl : s.2.literalToGlobal.lookup (data, some dgid) with
    | some gid =>
      obtain ⟨datatype', hdgid', hgid⟩ := (h.literals _ _ _).1 hl
      cases hdgid.symm.trans hdgid'
      exact ⟨_, G, rfl, h, prefix_refl _, fun _ _ hf => hf, hs.set hk hgid⟩
    | none =>
      have hnew : .literal datatype data ∉ G := by
        intro hmem
        obtain ⟨gid, hgid⟩ := mem_iff_getElem?.1 hmem
        simp [(h.literals data dgid gid).2 ⟨datatype, hdgid, hgid⟩] at hl
      refine ⟨_, _, rfl, h.pushLiteral hdgid hnew, prefix_append _ _, fun i' a' hf i'' a'' hmem => ?_, ?_⟩
      · exact hf i'' a'' (by simpa using hmem)
      · refine (hs.mono (prefix_append _ _)).set hk ?_
        rw [h.next]
        simp [globalKey]

/-- **The ids of one graph.** -/
theorem Indexed.assignGraph (hg : g.Described keys) (h : Indexed st G) (hf : Fresh i 0 G) :
    ∃ ids st' G', assignGraph st g = some (ids, st') ∧ Indexed st' G' ∧ G <+: G' ∧ Fresh (i + 1) 0 G' ∧
      AssignedBelow G' i keys keys.length ids := by
  obtain ⟨G1, h1, hG1, hf1, hlen, hres⟩ := h.assignResources hf keys
  rw [← hg.dict] at h1 hlen hres
  have key : ∀ m ≤ keys.length, ∃ s' G', (range m).foldlM (GraphNodeIndex.assignLiteral g)
      (GraphNodeIndex.assignResources st g.nodes.idToNode) = some s' ∧ Indexed s'.2 G' ∧ G1 <+: G' ∧
      (∀ b n, Fresh b n G1 → Fresh b n G') ∧ AssignedBelow G' i keys m s'.1 := by
    intro m
    induction m with
    | zero =>
      intro _
      refine ⟨_, G1, rfl, h1, prefix_refl _, fun _ _ hf => hf, hlen, fun b k hb hb' => ?_⟩
      have hgiven := hres b k hb (hb'.resolve_right (Nat.not_lt_zero b))
      rwa [Nat.zero_add] at hgiven
    | succ m ih =>
      intro hm
      obtain ⟨s', G2, hrun, h2, hG2, hf2, hs⟩ := ih (Nat.le_of_succ_le hm)
      obtain ⟨s'', G3, hstep, h3, hG3, hf3, hs'⟩ := h2.assignLiteral hg hs hm
      refine ⟨s'', G3, ?_, h3, hG2.trans hG3, fun b n hf => hf3 b n (hf2 b n hf), hs'⟩
      rw [range_succ, foldlM_append, hrun]
      simpa using hstep
  obtain ⟨⟨ids, st'⟩, G', hrun, h', hG', hf', hs⟩ := key keys.length (Nat.le_refl _)
  refine ⟨ids, st', G', ?_, h', hG1.trans hG', fun i' a' hmem => ?_, hs⟩
  · rw [GraphNodeIndex.assignGraph, hg.size]
    exact hrun
  · have := hf' i _ hf1 i' a' hmem
    omega

/-! ## Mappings of distinct ids -/

theorem foldl_insert (ids : List (Option Nat)) : ids.foldl NodeIdMapping.insert .empty = .deserialize ids := by
  induction ids using reverseRecOn with
  | nil => rfl
  | append_singleton ids gid ih =>
    rw [foldl_append, ih]
    simp [NodeIdMapping.insert, NodeIdMapping.deserialize, zipIdx_append]

theorem getLocalSafe_deserialize (hnd : ids.Nodup) {gid : Option Nat} {a : Nat} :
    (NodeIdMapping.deserialize ids).getLocalSafe gid = some a ↔ ids[a]? = some gid := by
  have hlookup := Assoc.lookup_foldl_zipIdx ids gid
  rw [NodeIdMapping.getLocalSafe, NodeIdMapping.deserialize, hlookup, idxOf?_eq_some_iff_getElem? hnd]

/-! ## All graphs -/

/-- The graph's dictionary and storage describe one list of terms, as they do
when it was parsed or taken from its cache. -/
def Loaded (g : RdfGraph) : Prop := ∃ keys, g.Described keys

/-- What `addTriple` builds from an empty graph is loaded. -/
theorem loaded_addTriples {fileName sourceFileName : String} {iri : Bytes}
    {nodeCapacity relCapacity propCapacity : Int} {calls : List (List Slot × Triple)} {ids : List RdfGraph.TripleIds}
    (hn : IsCapacity nodeCapacity) (hr : IsCapacity relCapacity) (hp : IsCapacity propCapacity)
    (hrun : (RdfGraph.create fileName iri sourceFileName nodeCapacity relCapacity propCapacity).addTriples calls =
      some (ids, g)) : Loaded g := by
  obtain ⟨keys, h, -⟩ := RdfGraph.interned_addTriples hn hr hp hrun
  exact ⟨keys, h.toDescribed⟩

/-- Every node of the `i`-th graph has the id of its key. -/
structure Numbered (G : List GlobalKey) (i : Nat) (g : RdfGraph) (ids : List (Option Nat)) : Prop where
  length : ids.length = g.nodes.size
  given : ∀ a k, g.meaning a = some k → Given G (ids[a]?) (globalKey i a k)

theorem buildFrom_spec {graphs : List (Bytes × RdfGraph)} (index : List (Bytes × NodeIdMapping)) (h : Indexed st G)
    (hf : Fresh i 0 G) (hload : ∀ e ∈ graphs, Loaded e.2) (hnames : (graphs.map indexName).Nodup)
    (hindex : ∀ e ∈ index, NodeIdMapping.deserialize e.2.serialize = e.2) :
    ∃ index' G', buildFrom st index graphs = some index' ∧ G <+: G' ∧ G'.Nodup ∧
      (∀ e ∈ index', NodeIdMapping.deserialize e.2.serialize = e.2) ∧
      (∀ name, name ∉ graphs.map indexName → index'.lookup name = index.lookup name) ∧
      ∀ j e, graphs[j]? = some e → ∃ ids, index'.lookup (indexName e) = some (.deserialize ids) ∧
        Numbered G' (i + j) e.2 ids := by
  induction graphs generalizing st G i index with
  | nil => exact ⟨index, G, rfl, prefix_refl _, h.nodup, hindex, fun _ _ => rfl, by simp⟩
  | cons e graphs ih =>
    obtain ⟨keys, hkeys⟩ := hload e (by simp)
    obtain ⟨ids, st1, G1, hrun, h1, hG1, hf1, hids⟩ := h.assignGraph hkeys hf
    obtain ⟨hname, hnames⟩ := nodup_cons.1 hnames
    have hindex1 : ∀ e' ∈ Assoc.insert index (indexName e) (.deserialize ids),
        NodeIdMapping.deserialize e'.2.serialize = e'.2 := by
      exact forall_mem_cons.2 ⟨rfl, fun e' he' => hindex e' (mem_of_mem_filter he')⟩
    obtain ⟨index', G', hrest, hG', hnd, hindex', hother, hall⟩ :=
      ih _ h1 hf1 (fun e he => hload e (by simp [he])) hnames hindex1
    refine ⟨index', G', ?_, hG1.trans hG', hnd, hindex', fun name hn => ?_, fun j e' hj => ?_⟩
    · rw [buildFrom, hrun]
      simpa [foldl_insert] using hrest
    · rw [map_cons, mem_cons, not_or] at hn
      rw [hother name hn.2, Assoc.lookup_insert, if_neg hn.1]
    · cases j with
      | zero =>
        obtain rfl : e = e' := by simpa using hj
        refine ⟨ids, ?_, ?_, fun a k hk => ?_⟩
        · rw [hother _ hname, Assoc.lookup_insert, if_pos rfl]
        · rw [hids.length, hkeys.size]
        · rw [hkeys.meaning] at hk
          exact (hids.given a k hk (.inr (List.getElem?_eq_some_iff.1 hk).1)).mono hG'
      | succ j =>
        obtain ⟨ids', hlookup, hnum⟩ := hall j e' (by simpa using hj)
        refine ⟨ids', hlookup, ?_⟩
        rwa [Nat.add_assoc, Nat.add_comm 1 j] at hnum

/-- Two nodes are the same IRI or the same literal. -/
def SharedTerm (o o' : Option TermKey) : Prop := ∃ k, o = some k ∧ o' = some k ∧ ∀ label, k ≠ .bnode label

/-- Equal keys are those of one node, or of one shared term. -/
theorem globalKey_eq_iff {g' : RdfGraph} {j b : Nat} {k' : TermKey} (hgraph : i = j → g = g')
    (hk : g.meaning a = some k) (hk' : g'.meaning b = some k') :
    globalKey i a k = globalKey j b k' ↔ (i = j ∧ a = b) ∨ SharedTerm (g.meaning a) (g'.meaning b) := by
  rw [hk, hk']
  constructor
  · cases k <;> cases k' <;> simp_all [globalKey, SharedTerm]
  · rintro (⟨rfl, rfl⟩ | ⟨k1, h1, h2, hb⟩)
    · cases hgraph rfl
      cases hk.symm.trans hk'
      rfl
    · cases h1
      cases h2
      cases k with
      | bnode label => exact absurd rfl (hb label)
      | _ => rfl

/-- Within a graph the ids are distinct. -/
theorem Numbered.nodup (h : Numbered G i g ids) (hg : g.Described keys) : ids.Nodup := by
  rw [nodup_iff_getElem?_ne_getElem?]
  intro a b hab hb heq
  have hlen : ids.length = keys.length := h.length.trans hg.size
  have hka : keys[a]? = some keys[a] := List.getElem?_eq_getElem _
  have hkb : keys[b]? = some keys[b] := List.getElem?_eq_getElem _
  have hma := (hg.meaning a).trans hka
  have hmb := (hg.meaning b).trans hkb
  obtain ⟨gid, hid, hgid⟩ := h.given a _ hma
  obtain ⟨gid', hid', hgid'⟩ := h.given b _ hmb
  obtain rfl : gid = gid' := by simpa [hid, hid'] using heq
  have hkey := some.inj (hgid.symm.trans hgid')
  obtain ⟨-, rfl⟩ | ⟨k, h1, h2, -⟩ := (globalKey_eq_iff (fun _ => rfl) hma hmb).1 hkey
  · exact absurd hab (Nat.lt_irrefl _)
  · rw [hg.meaning] at h1 h2
    exact absurd (nodup_getElem?_inj hg.nodup h1 h2) (Nat.ne_of_lt hab)

/-- What the index of the graphs says. -/
structure Correct (graphs : List (Bytes × RdfGraph)) (index : List (Bytes × NodeIdMapping)) : Prop where
  /-- Every graph has its mapping, and the way back is its inverse. -/
  mapping : ∀ e ∈ graphs, ∃ m, index.lookup (indexName e) = some m ∧ m.size = e.2.nodes.size ∧
    (∀ a < e.2.nodes.size, ∃ gid, m.getGlobalSafe a = some gid ∧ m.getLocalSafe (some gid) = some a) ∧
    ∀ gid a, m.getLocalSafe (some gid) = some a → m.getGlobalSafe a = some gid
  /-- Two nodes have one id exactly if they are one node, or one IRI or
  literal. -/
  same : ∀ (i j : Nat) e e' m m' a b, graphs[i]? = some e → graphs[j]? = some e' →
    index.lookup (indexName e) = some m → index.lookup (indexName e') = some m' → a < e.2.nodes.size →
    b < e'.2.nodes.size →
    (m.getGlobalSafe a = m'.getGlobalSafe b ↔ (i = j ∧ a = b) ∨ SharedTerm (e.2.meaning a) (e'.2.meaning b))
  /-- The catalog brings the mappings back as they were. -/
  stored : deserialize (serialize index) = index

/-- **The index of loaded graphs with distinct names.** -/
theorem build_correct {graphs : List (Bytes × RdfGraph)} (hload : ∀ e ∈ graphs, Loaded e.2)
    (hnames : (graphs.map indexName).Nodup) : ∃ index, build graphs = some index ∧ Correct graphs index := by
  have hempty : Indexed { nextGlobalId := 0, iriToGlobal := [], literalToGlobal := [] } [] :=
    ⟨rfl, .nil, by simp, by simp, by simp⟩
  obtain ⟨index, G, hrun, -, hnd, hindex, -, hall⟩ := buildFrom_spec (i := 0) [] hempty
    (fun _ _ => by simp) hload hnames (by simp)
  have hmeaning : ∀ e ∈ graphs, ∀ a < e.2.nodes.size, ∃ k, e.2.meaning a = some k := by
    intro e he a ha
    obtain ⟨keys, hkeys⟩ := hload e he
    rw [hkeys.size] at ha
    exact ⟨keys[a], (hkeys.meaning a).trans (List.getElem?_eq_getElem ha)⟩
  refine ⟨index, hrun, fun e he => ?_, fun i j e e' m m' a b hi hj hm hm' ha hb => ?_, ?_⟩
  · obtain ⟨j, hj⟩ := mem_iff_getElem?.1 he
    obtain ⟨keys, hkeys⟩ := hload e he
    obtain ⟨ids, hlookup, hnum⟩ := hall j e hj
    have hids := hnum.nodup hkeys
    refine ⟨_, hlookup, hnum.length, fun a ha => ?_, fun gid a hgid => ?_⟩
    · obtain ⟨k, hk⟩ := hmeaning e he a ha
      obtain ⟨gid, hgid, -⟩ := hnum.given a k hk
      exact ⟨gid, by simp [NodeIdMapping.getGlobalSafe, NodeIdMapping.deserialize, hgid],
        (getLocalSafe_deserialize hids).2 hgid⟩
    · have hget := (getLocalSafe_deserialize hids).1 hgid
      simp [NodeIdMapping.getGlobalSafe, NodeIdMapping.deserialize, hget]
  · obtain ⟨ids, hlookup, hnum⟩ := hall i e hi
    obtain ⟨ids', hlookup', hnum'⟩ := hall j e' hj
    cases hm.symm.trans hlookup
    cases hm'.symm.trans hlookup'
    obtain ⟨k, hk⟩ := hmeaning e (mem_of_getElem? hi) a ha
    obtain ⟨k', hk'⟩ := hmeaning e' (mem_of_getElem? hj) b hb
    obtain ⟨gid, hgid, hG⟩ := hnum.given a k hk
    obtain ⟨gid', hgid', hG'⟩ := hnum'.given b k' hk'
    simp only [Nat.zero_add] at hG hG'
    have hgraph : i = j → e.2 = e'.2 := by
      rintro rfl
      cases hi.symm.trans hj
      rfl
    rw [← globalKey_eq_iff hgraph hk hk']
    simp only [NodeIdMapping.getGlobalSafe, NodeIdMapping.deserialize, hgid, hgid', join_some, some.injEq]
    constructor
    · intro heq
      exact some.inj (hG.symm.trans (heq ▸ hG'))
    · intro heq
      exact nodup_getElem?_inj hnd hG (heq ▸ hG')
  · rw [serialize, GraphNodeIndex.deserialize, List.map_map]
    exact (map_congr_left fun e he => by simp [hindex e he]).trans (map_id _)

theorem build_correct_two : ∃ ids g index,
    (RdfGraph.create "g" (ascii "g") "" 8 8 8).addTriples [([.subject, .predicate, .object], RdfGraph.literalTriple)] =
      some (ids, g) ∧ build [(ascii "a", g), ([], g)] = some index ∧ Correct [(ascii "a", g), ([], g)] index := by
  have hiri : (((RdfGraph.create "g" (ascii "g") "" 8 8 8).addTriples
      [([.subject, .predicate, .object], RdfGraph.literalTriple)]).map fun r => r.2.iri) = some (ascii "g") := by
    decide +kernel
  obtain ⟨⟨ids, g⟩, hrun, hiri⟩ := map_eq_some_iff.1 hiri
  replace hiri : g.iri = ascii "g" := hiri
  have hload : Loaded g := loaded_addTriples (by decide) (by decide) (by decide) hrun
  have hnames : ([(ascii "a", g), ([], g)].map indexName) = [ascii "a", ascii "g"] := by
    simp [indexName, hiri]
    decide
  have hloaded : ∀ e ∈ [(ascii "a", g), ([], g)], Loaded e.2 := by simpa using hload
  obtain ⟨index, hbuild, hcorrect⟩ := build_correct hloaded (by rw [hnames]; decide)
  exact ⟨ids, g, index, hrun, hbuild, hcorrect⟩

end GraphNodeIndex
end GengoDB
