/-
An RDF graph in a new process. The cache file and the catalog bring back the
storage and the dictionary (`Described.reopen`), and with a source format also
the cache of the literals, which is rebuilt from their properties. A graph of
format `BINARY` gets no such cache: its literals are not found again. And the
table of the texts comes back with hardly any room for new ones
(`reopen_keeps_iff`).
-/
import GengoDB.GraphFileFacts
import GengoDB.RdfGraphFacts
import GengoDB.RdfLoad

namespace GengoDB

open Assoc (nodup_getElem?_inj)
open GraphData List

/-! ## The storage -/

/-- A graph with the same records in use is as well formed. -/
theorem Graph.WellFormed.ofInUse {g g' : Graph Int Int} {L : Int → List Int} (h : g.WellFormed L)
    (hnode : ∀ n, (g.nodes n).inUse → g'.nodes n = g.nodes n) (hrel : ∀ r, (g.rels r).inUse → g'.rels r = g.rels r)
    (hnodeUse : ∀ n, (g'.nodes n).inUse = (g.nodes n).inUse) (hrelUse : ∀ r, (g'.rels r).inUse = (g.rels r).inUse)
    (hnp : g'.nodePool = g.nodePool) (hrp : g'.relPool = g.relPool) : g'.WellFormed L := by
  have hinc : ∀ r n, (g.rels r).inUse → (g'.Incident r n ↔ g.Incident r n) := by
    intro r n hr
    simp only [Incident, hrel r hr]
  have huse : ∀ n, (g.nodes n).inUse → ∀ r ∈ L n, (g.rels r).inUse := fun n hn r hr =>
    ((h.mem n hn r).1 hr).1
  refine ⟨⟨fun n hn => ?_, fun n hn => ?_, fun n hn r hr => ?_⟩, fun n hn r => ?_, fun r n hr hi => ?_, ?_, ?_⟩
  · rw [hnodeUse] at hn
    refine (h.chain n hn).congr (congrArg NodeEntry.firstRelId (hnode n hn)) fun x hx => ?_
    simp only [view, nextOf, prevOf, hrel x (huse n hn x hx), and_self]
  · exact h.nodup n (hnodeUse n ▸ hn)
  · rw [hnodeUse] at hn
    exact (hinc r n (huse n hn r hr)).2 (h.incident n hn r hr)
  · rw [hnodeUse] at hn
    rw [h.mem n hn r, hrelUse]
    exact and_congr_right fun hr => (hinc r n hr).symm
  · rw [hrelUse] at hr
    rw [hnodeUse]
    exact h.endpoint r n hr ((hinc r n hr).1 hi)
  · rw [hrp]
    exact h.relPool.congr hrelUse
  · rw [hnp]
    exact h.nodePool.congr hnodeUse

namespace PropertyData

variable {d : PropertyData} {keys : List TermKey}

/-- The pools read back hold the same values. -/
theorem Bounded.reloaded {order : List (XsdType × BlobTable)} (h : d.Bounded keys) (d₀ : PropertyData)
    (horder : order.Perm d.blobs) : (reloaded d₀ d order).Bounded keys ∧ Extends d (reloaded d₀ d order) := by
  have hall {P : XsdType × BlobTable → Prop} (hP : ∀ e ∈ d.blobs, P (e.1, e.2.reloaded)) :
      ∀ e ∈ (PropertyData.reloaded d₀ d order).blobs, P e :=
    forall_mem_map.2 fun e he => hP e (horder.mem_iff.1 he)
  have hcol : ∀ kind, (PropertyData.reloaded d₀ d order).column kind = d.column kind := by
    intro kind
    cases kind <;> rfl
  refine ⟨⟨⟨?_, ?_⟩, ?_, ?_, ?_, ?_⟩, extends_of ?_ ?_⟩
  · simpa [PropertyData.reloaded, Function.comp_def] using (horder.map (·.1)).nodup_iff.2 h.nodup
  · exact hall fun e he => (h.table e he).reloaded
  · intro kind
    exact h.column kind
  · exact hall h.strings
  · refine hall fun e he => ?_
    rw [(h.table e he).blobs_reloaded]
    exact h.count e he
  · refine hall fun e he b hb => ?_
    rw [(h.table e he).blobs_reloaded] at hb
    exact h.sizes e he b hb
  · intro kind
    exact hcol kind ▸ prefix_refl _
  · intro idx data hb
    rwa [getBlob_reloaded d₀ h.toValid horder]

/-- The pools fit the file as long as the literals do. -/
theorem Bounded.fits32 (h : d.Bounded keys) (hlen : keys.length < 2 ^ 31)
    (hsize : ∀ datatype data, .literal datatype data ∈ keys → data.length < 2 ^ 32) : d.Fits32 := by
  have hcol : ∀ kind, (d.column kind).length < 2 ^ 32 := fun kind => (h.column kind).trans_lt (by omega)
  refine ⟨hcol .int64, hcol .uint64, hcol .double, ?_, ?_, ?_⟩
  · -- There is only one table.
    have hone : (d.blobs.map (·.1)).length ≤ 1 := by
      have hsub : d.blobs.map (·.1) ⊆ [.string] := by
        intro type htype
        obtain ⟨e, he, rfl⟩ := mem_map.1 htype
        exact mem_singleton.2 (h.strings e he)
      exact h.nodup.length_le_of_subset hsub
    rw [length_map] at hone
    omega
  · intro e he
    have := h.count e he
    omega
  · intro e he b hb
    obtain ⟨datatype, data, hk, hb⟩ := h.sizes e he b hb
    rw [hb]
    exact hsize datatype data hk

end PropertyData

namespace PropertyStore

variable {s s' : PropertyStore} {n : Nat} {keys : List TermKey} {order : List (XsdType × BlobTable)}

theorem Holds.machine (h : s.Holds n keys) : s.toPropertyGraph.Machine := by
  obtain ⟨L, hwf⟩ := h.wf
  exact { h.range with
    nodePool := hwf.nodePool.machine h.range.graph.nodeCap
    relPool := hwf.relPool.machine h.range.graph.relCap
    propPool := h.propPool }

/-- **A store read back holds the same terms.** -/
theorem Holds.reloaded {nodeCapacity relCapacity propCapacity : Int} {d₀ : PropertyData} (h : s.Holds n keys)
    (hrel : s.graph.relPool.free = []) (hpools : PoolsReset s s') (hrecs : SameRecords s s')
    (hrest : RestKept s (create nodeCapacity relCapacity propCapacity) s')
    (hdata : s'.propData = .reloaded d₀ s.propData order) (horder : order.Perm s.propData.blobs) : s'.Holds n keys := by
  obtain ⟨L, hwf⟩ := h.wf
  obtain ⟨hbounded, hext⟩ := h.data.reloaded d₀ horder
  have hnp : s'.graph.nodePool = s.graph.nodePool := by rw [hpools.node, ← h.nodeFree]
  have hrp : s'.graph.relPool = s.graph.relPool := by rw [hpools.rel, ← hrel]
  have hpp : s'.propPool = s.propPool := by rw [hpools.prop, ← h.propFree]
  have hmark := h.nodeMark
  -- A slot is below the mark or as it was created.
  have hnode : ∀ i, s'.graph.nodes i = s.graph.nodes i ∨
      s'.graph.nodes i = .zero ∧ (s.graph.nodes i).inUse = false := by
    intro i
    by_cases hi : 0 ≤ i ∧ i < s.graph.nodePool.mark
    · exact .inl (hrecs.node i hi.1 hi.2).1
    · refine .inr ⟨hrest.node i (by omega), ?_⟩
      by_contra hused
      exact hi (hwf.nodePool.bounds (by simpa using hused))
  have hrels : ∀ i, s'.graph.rels i = s.graph.rels i ∨
      s'.graph.rels i = .zero ∧ (s.graph.rels i).inUse = false := by
    intro i
    by_cases hi : 0 ≤ i ∧ i < s.graph.relPool.mark
    · exact .inl (hrecs.rel i hi.1 hi.2).1
    · refine .inr ⟨hrest.rel i (by omega), ?_⟩
      by_contra hused
      exact hi (hwf.relPool.bounds (by simpa using hused))
  have hprops : ∀ i, s'.props i = s.props i ∨ s'.props i = .zero := by
    intro i
    by_cases hi : 0 ≤ i ∧ i < s.propPool.mark
    · exact .inl (hrecs.prop i hi.1 hi.2)
    · exact .inr (hrest.prop i (by omega))
  have hpay : ∀ id : Nat, id < n → (s'.graph.nodes id).payload = (s.graph.nodes id).payload := fun id hid =>
    congrArg NodeEntry.payload (hrecs.node id (by omega) (by omega)).1
  have hlt : ∀ {id : Nat} {k : TermKey}, keys[id]? = some k → id < n := fun hk =>
    (List.getElem?_eq_some_iff.1 hk).1.trans_le h.len
  refine ⟨⟨L, hwf.ofInUse ?_ ?_ ?_ ?_ hnp hrp⟩, ?_, ?_, ⟨⟨?_, ?_, ?_, ?_⟩, ?_, ?_⟩, ?_, ?_, ?_, h.len, ?_, ?_, ?_⟩
  · intro i hi
    obtain he | ⟨-, hunused⟩ := hnode i
    · exact he
    · simp [hi] at hunused
  · intro i hi
    obtain he | ⟨-, hunused⟩ := hrels i
    · exact he
    · simp [hi] at hunused
  · intro i
    obtain he | ⟨he, hunused⟩ := hnode i
    · rw [he]
    · rw [he, hunused]
      rfl
  · intro i
    obtain he | ⟨he, hunused⟩ := hrels i
    · rw [he]
    · rw [he, hunused]
      rfl
  · rw [hnp, h.nodeMark]
  · rw [hnp, h.nodeFree]
  · intro i
    obtain he | ⟨he, -⟩ := hnode i
    · exact he ▸ h.range.graph.nodes i
    · exact he ▸ ⟨.zero, .zero⟩
  · intro i
    obtain he | ⟨he, -⟩ := hrels i
    · exact he ▸ h.range.graph.rels i
    · exact he ▸ ⟨.zero, .zero, .zero, .zero, .zero, .zero, .zero⟩
  · rw [hnp]
    exact h.range.graph.nodeCap
  · rw [hrp]
    exact h.range.graph.relCap
  · intro i
    obtain he | he := hprops i
    · exact he ▸ h.range.props i
    · exact he ▸ ⟨.zero, .zero⟩
  · rw [hpp]
    exact h.range.propCap
  · rw [hpp]
    exact h.propPool
  · rw [hpp, h.propFree]
  · rw [hdata]
    exact hbounded
  · intro id hid hn
    exact (hpay id hn).trans (h.fresh id hid hn)
  · intro id k hk hres
    exact (hpay id (hlt hk)).trans (h.resource id k hk hres)
  · intro id datatype data hk
    obtain ⟨dt, p, hst⟩ := h.literal id datatype data hk
    exact ⟨dt, p, hst.mono (prefix_refl _) (hpay id (hlt hk)) (hpp ▸ Int.le_refl _) hrecs.prop (hdata ▸ hext)⟩

end PropertyStore

/-! ## Rebuilding the cache -/

namespace RdfGraph

variable {g g' : RdfGraph} {keys : List TermKey}

/-- The cache knows the literals among the first `m` nodes. -/
def CacheBelow (cache : List ((Bytes × Nat) × Nat)) (keys : List TermKey) (m : Nat) : Prop :=
  ∀ data dt id, cache.lookup (data, dt) = some id ↔
    id < m ∧ ∃ datatype, keys[dt]? = some (.iri datatype) ∧ keys[id]? = some (.literal datatype data)

variable {cache : List ((Bytes × Nat) × Nat)}

theorem CacheBelow.addLiteral {m dt : Nat} {datatype data : Bytes}
    (h : CacheBelow cache keys m) (hnd : keys.Nodup) (hm : keys[m]? = some (.literal datatype data))
    (hdt : keys[dt]? = some (.iri datatype)) : CacheBelow (Assoc.emplace cache (data, dt) m) keys (m + 1) := by
  intro data' dt' id
  rw [Assoc.lookup_emplace, Option.or_eq_some_iff, h]
  constructor
  · intro hid
    obtain ⟨hlt, hkeys⟩ | ⟨-, hnew⟩ := hid
    · exact ⟨hlt.trans (Nat.lt_succ_self m), hkeys⟩
    · split at hnew
      · next he =>
        cases he
        cases hnew
        exact ⟨Nat.lt_succ_self _, datatype, hdt, hm⟩
      · cases hnew
  · intro ⟨hlt, datatype', hdt', hid⟩
    rcases Nat.lt_succ_iff_lt_or_eq.1 hlt with hlt | rfl
    · exact .inl ⟨hlt, datatype', hdt', hid⟩
    · cases hm.symm.trans hid
      obtain rfl := nodup_getElem?_inj hnd hdt hdt'
      refine .inr ⟨?_, if_pos rfl⟩
      rw [Option.eq_none_iff_forall_not_mem]
      intro id' hid'
      obtain ⟨hlt', datatype', hdt', hlit⟩ := (h _ _ _).1 hid'
      cases hdt.symm.trans hdt'
      exact absurd (nodup_getElem?_inj hnd hlit hid) (Nat.ne_of_lt hlt')

theorem CacheBelow.skip {m : Nat} {k : TermKey} (h : CacheBelow cache keys m)
    (hm : keys[m]? = some k) (hk : k.isLiteral = false) : CacheBelow cache keys (m + 1) := by
  intro data dt id
  rw [h]
  refine and_congr_left fun ⟨datatype, _, hid⟩ => ⟨fun hlt => hlt.trans (Nat.lt_succ_self m), fun hlt => ?_⟩
  refine (Nat.lt_succ_iff_lt_or_eq.1 hlt).resolve_right fun he => ?_
  subst he
  cases hm.symm.trans hid
  cases hk

/-- The graph does not matter to a literal's key but for storage and
dictionary. -/
theorem Described.withCache (h : g.Described keys) (cache : List ((Bytes × Nat) × Nat)) :
    ({ g with literalNodes := cache } : RdfGraph).Described keys :=
  { h with store := h.store }

theorem Described.cacheNode (h : g.Described keys) {m : Nat} (hm : m < keys.length)
    (hc : CacheBelow g.literalNodes keys m) :
    ∃ cache, g.cacheNode m = some { g with literalNodes := cache } ∧ CacheBelow cache keys (m + 1) := by
  obtain ⟨k, hk⟩ : ∃ k, keys[m]? = some k := ⟨_, getElem?_eq_getElem hm⟩
  have hget := h.get hk
  cases k with
  | iri a | bnode a =>
    refine ⟨g.literalNodes, if_pos (.inl ?_), hc.skip hk rfl⟩
    rw [hget]
    exact nofun
  | literal datatype data =>
    obtain ⟨dt, hdt, hkey⟩ := h.literalKeyFor hk
    obtain ⟨_, p, hst⟩ := h.store.literal m datatype data hk
    refine ⟨Assoc.emplace g.literalNodes (data, dt) m, ?_, hc.addLiteral h.nodup hk hdt⟩
    have hpay : ¬ (g.store.graph.nodes m).payload < 0 := by
      rw [hst.payload]
      exact Int.not_lt.2 hst.nonneg
    rw [RdfGraph.cacheNode, if_neg, hkey]
    · rfl
    · rw [hget]
      simpa [TermKey.nodeId, NodeId.literal] using hpay

/-- **The cache rebuilt** knows every literal. -/
theorem Described.rebuildLiteralNodeCache (h : g.Described keys) (hempty : g.literalNodes = []) :
    ∃ cache, g.rebuildLiteralNodeCache = some { g with literalNodes := cache } ∧
      { g with literalNodes := cache }.Interned keys := by
  have key : ∀ m ≤ keys.length, ∃ cache, (range m).foldlM RdfGraph.cacheNode g =
      some { g with literalNodes := cache } ∧ CacheBelow cache keys m := by
    intro m
    induction m with
    | zero =>
      intro _
      exact ⟨[], by rw [← hempty]; rfl, by simp [CacheBelow]⟩
    | succ m ih =>
      intro hm
      obtain ⟨cache, hrun, hc⟩ := ih (Nat.le_of_succ_le hm)
      obtain ⟨cache', hstep, hc'⟩ := (h.withCache cache).cacheNode hm hc
      refine ⟨cache', ?_, hc'⟩
      rw [range_succ, foldlM_append, hrun]
      simpa using hstep
  obtain ⟨cache, hrun, hc⟩ := key keys.length (Nat.le_refl _)
  refine ⟨cache, ?_, h.withCache cache, fun data dt id => ?_⟩
  · rw [RdfGraph.rebuildLiteralNodeCache, h.size]
    exact hrun
  · rw [hc data dt id]
    refine and_iff_right_of_imp fun ⟨_, _, hid⟩ => (List.getElem?_eq_some_iff.1 hid).1

/-! ## A new process -/

/-- The pools and the values of a store as they are read back. -/
structure ReadBack (s s' : PropertyStore) : Prop where
  nodePool : s'.graph.nodePool = s.graph.nodePool
  propPool : s'.propPool = s.propPool
  data : ∃ d₀ order, order.Perm s.propData.blobs ∧ s'.propData = .reloaded d₀ s.propData order

section

variable {r : RdfGraph} {order : List (XsdType × BlobTable)}

/-- What a new process makes of the catalog entry. -/
def fromCatalog (g : RdfGraph) : RdfGraph :=
  { create g.fileName g.iri g.sourceFileName g.store.graph.nodePool.cap g.store.graph.relPool.cap
      g.store.propPool.cap with
    storage := .create g.storage.fileName g.store.graph.nodePool.cap g.store.graph.relPool.cap g.store.propPool.cap
    nodes := .ofNodes g.nodes.idToNode }

/-- **The catalog's dictionary** is the one that was stored: a graph has fewer
nodes than there are prefix ids. -/
theorem Described.deserialize (h : g.Described keys) : deserialize g.serialize = some g.fromCatalog := by
  have hshape : ∀ node ∈ g.nodes.idToNode, NodeIdDict.WellShaped node := by
    rw [h.dict]
    intro node hnode
    obtain ⟨k, -, rfl⟩ := mem_map.1 hnode
    cases k with
    | iri a => exact .inl ⟨a, rfl⟩
    | bnode a => exact .inr (.inl ⟨rfl, rfl⟩)
    | literal d a => exact .inr (.inr rfl)
  have hprefixes : g.nodes.prefixes.length ≤ 2 ^ 31 := by
    have hlt := h.store.lt_cap
    have hle := g.nodes.length_prefixes_le
    rw [h.size] at hle
    omega
  have hnodes : NodeIdDict.deserialize g.serialize.nodes = some (.ofNodes g.nodes.idToNode) :=
    (NodeIdDict.deserialize_serialize hshape).trans (if_pos hprefixes)
  rw [RdfGraph.deserialize, hnodes]
  rfl

/-- A cache just written is fresh. -/
theorem hasFreshCache_flush {s : GengoDBGraph} {now : Nat} {disk : Disk} (hdir : s.dbDir ≠ "") (hname : s.fileName ≠ "")
    (order : List (XsdType × BlobTable)) (htime : ∀ path f, disk path = some f → f.time ≤ now) (path : String) :
    s.reopened.hasFreshCache (s.flush order now disk) path := by
  have hfile := GengoDBGraph.flush_graphPath hdir hname order now disk
  have hall : ∀ path f, s.flush order now disk path = some f → f.time ≤ now := by
    intro path f hf
    rw [GengoDBGraph.flush, if_neg (by simp [hdir, hname])] at hf
    rcases eq_or_ne path s.graphPath with rfl | hne
    · rw [Function.update_self] at hf
      cases hf
      exact Nat.le_refl _
    · rw [Function.update_of_ne hne] at hf
      exact htime path f hf
  rw [GengoDBGraph.hasFreshCache, if_neg (by simp [GengoDBGraph.reopened, GengoDBGraph.create, hdir, hname])]
  rw [show s.reopened.graphPath = s.graphPath from rfl, hfile]
  simp only
  split
  · rfl
  · cases hsource : s.flush order now disk path with
    | none => rfl
    | some f => exact decide_eq_true (hall path f hsource)

/-- The graph a new process makes of the catalog entry, before it is loaded. -/
theorem storage_reopened (hdir : g.storage.dbDir = g.dbDir) :
    (g.fromCatalog.setDBDir g.dbDir).storage = g.storage.reopened := by
  rw [← hdir]
  rfl

variable (h : g.Described keys) (hfree : g.store.graph.relPool.free = [])
  (hsize : ∀ datatype data, .literal datatype data ∈ keys → data.length < 2 ^ 32)
  (hname : g.storage.fileName ≠ "") (horder : order.Perm g.store.propData.blobs) (now : Nat) (disk : Disk)
include h hfree hsize hname horder

/-- **The storage of a graph that was flushed**, with the catalog's
dictionary. -/
theorem Described.loadStorage (hdir : g.storage.dbDir ≠ "") (hstorage : r.storage = g.storage.reopened)
    (hnodes : r.nodes = .ofNodes g.nodes.idToNode) :
    ∃ storage, r.loadStorage (g.storage.flush order now disk) = .ok { r with storage } ∧
      ({ r with storage } : RdfGraph).Described keys ∧ ReadBack g.store storage.storage := by
  have hstorable : GengoDBGraph.Storable g.storage.storage :=
    ⟨h.store.machine, h.store.data.toValid, h.store.data.fits32 h.store.lt_cap hsize⟩
  obtain ⟨storage, hload, hpools, hrecs, hrest, hdata⟩ :=
    GengoDBGraph.ensureLoaded_reopened hstorable hdir hname horder now disk
  refine ⟨storage, ?_, ⟨h.nodup, h.terms, ?_, ?_, ?_⟩, ?_, ?_, _, order, horder, hdata⟩
  · rw [RdfGraph.loadStorage, hstorage, hload]
  · exact (congrArg NodeIdDict.idToNode hnodes).trans h.dict
  · exact hnodes ▸ NodeIdDict.canonical_ofNodes _
  · exact h.store.reloaded hfree hpools hrecs hrest hdata horder
  · rw [hpools.node]
    exact congrArg (fun free => { g.storage.storage.graph.nodePool with free }) h.store.nodeFree.symm
  · rw [hpools.prop]
    exact congrArg (fun free => { g.storage.storage.propPool with free }) h.store.propFree.symm

/-- **A graph in a new process**: the dictionary and the storage as they were,
and the cache of the literals unless the format is `BINARY`. -/
theorem Described.reopen (hsame : g.storage.dbDir = g.dbDir) (hdir : g.dbDir ≠ "")
    (htime : ∀ path f, disk path = some f → f.time ≤ now) (format : RDFFileFormat) (p : Parsers)
    (argOrder : Triple → List Slot) :
    ∃ g', g.reopen format p argOrder (g.storage.flush order now disk) = .ok g' ∧ g'.Described keys ∧
      ReadBack g.store g'.store ∧ if format = .binary then g'.literalNodes = [] else g'.Interned keys := by
  have hdir' : g.storage.dbDir ≠ "" := hsame ▸ hdir
  have hstorage := storage_reopened hsame
  simp only [RdfGraph.reopen, h.deserialize]
  unfold ensureFullyLoaded
  split
  · let r : RdfGraph := { g.fromCatalog.setDBDir g.dbDir with loadedFromRdfFile := false, loaded := true }
    obtain ⟨storage, hload, hdesc, hback⟩ :=
      h.loadStorage (r := r) hfree hsize hname horder now disk hdir' hstorage rfl
    exact ⟨_, hload, hdesc, hback, rfl⟩
  · let r : RdfGraph := { g.fromCatalog.setDBDir g.dbDir with
      loadedFromRdfFile := true, rdfParseFlags := format.getRDFParseFlags
      fuzzy := decide (format = .fuzzyTurtle), loaded := true }
    obtain ⟨storage, hload, hdesc, hback⟩ :=
      h.loadStorage (r := r) hfree hsize hname horder now disk hdir' hstorage rfl
    obtain ⟨cache, hcache, hinterned⟩ := hdesc.rebuildLiteralNodeCache rfl
    have huses : r.usesCache (g.storage.flush order now disk) := by
      have hfresh := hasFreshCache_flush hdir' hname order htime r.sourcePath
      rw [← hstorage] at hfresh
      exact hfresh
    refine ⟨_, ?_, hinterned.toDescribed, hback, hinterned⟩
    show (if r.usesCache _ then _ else _) = _
    rw [if_pos huses, hload]
    simp only [Except.bind, hcache]

end

/-! ## Room for a term -/

section Room

variable {enc : EncodedValue} {k : TermKey} {l : Literal}

theorem Described.addNode_isSome_iff (h : g.Described keys) :
    g.store.addNode.isSome ↔ (keys.length : Int) < g.store.graph.nodePool.cap := by
  refine ⟨fun hs => ?_, fun hroom => Option.isSome_iff_exists.2 (h.addNode_isSome hroom)⟩
  obtain ⟨s, hs⟩ := Option.isSome_iff_exists.1 hs
  obtain ⟨id, q, hq, -⟩ := PropertyStore.addNode_eq_some hs
  exact h.store.nodeMark ▸ (Pool.alloc_of_free_nil h.store.nodeFree hq).2.2

/-- A new resource needs a node. -/
theorem Described.resolveResource_isSome_iff (h : g.Described keys) (hk : k.isLiteral = false) (hc : k.Clean)
    (hnew : k ∉ keys) : (g.resolveResource k.nodeId).isSome ↔ (keys.length : Int) < g.store.graph.nodePool.cap := by
  rw [h.resolveResource_of_notMem hk hc hnew, Option.isSome_map, h.addNode_isSome_iff]

theorem Interned.insertLiteral_isSome_iff (h : g.Interned keys) (datatype : Bytes) (dt : Nat) (enc : EncodedValue) :
    (g.insertLiteral datatype dt enc).isSome ↔
    (keys.length : Int) < g.store.graph.nodePool.cap ∧ g.store.propPool.mark < g.store.propPool.cap ∧
      (g.store.propData.storeValue enc).isSome := by
  refine ⟨fun hsome => ?_, fun ⟨hroom, hprops, hvalue⟩ => ?_⟩
  · obtain ⟨⟨id, g'⟩, hrun⟩ := Option.isSome_iff_exists.1 hsome
    obtain ⟨s, value, d, s', hs, hvalue, hprop, -, -⟩ := h.insertLiteral_eq_some.1 hrun
    obtain ⟨-, hpool, hdata⟩ := addNode_fields hs
    obtain ⟨hstore, -⟩ := h.store.addNode hs
    obtain ⟨id', q, hq, -⟩ := PropertyStore.addNodeProperty_eq_some
      (s := { s with propData := d }) (hstore.fresh _ (Nat.le_refl _) (Nat.lt_succ_self _)) hprop
    refine ⟨h.addNode_isSome_iff.1 (by rw [hs]; rfl), ?_, ?_⟩
    · rw [← hpool]
      exact (Pool.alloc_of_free_nil hstore.propFree hq).2.2
    · rw [← hdata, hvalue]
      rfl
  · obtain ⟨⟨value, d⟩, hvalue⟩ := Option.isSome_iff_exists.1 hvalue
    exact Option.isSome_iff_exists.2 (h.insertLiteral_isSome hroom hprops hvalue)

theorem Interned.lookup_eq_none (h : g.Interned keys) {dt : Nat} {datatype data : Bytes}
    (hdt : keys[dt]? = some (.iri datatype)) (hnew : .literal datatype data ∉ keys) : g.literalNodes.lookup (data, dt) = none := by
  rw [Option.eq_none_iff_forall_not_mem]
  intro id hid
  obtain ⟨datatype', hdt', hlit⟩ := (h.cache _ _ _).1 hid
  cases hdt.symm.trans hdt'
  exact hnew (mem_of_getElem? hlit)

/-- A new literal needs a node, another one for a new datatype, and a property
with its value. -/
theorem Interned.resolveLiteral_isSome_iff (h : g.Interned keys) (henc : l.encode = some enc)
    (hnew : .literal l.datatype enc.bytes ∉ keys) : (g.resolve (.literal l)).isSome ↔
      (keys.length : Int) < g.store.graph.nodePool.cap ∧
        (.iri l.datatype ∉ keys → (keys.length : Int) + 1 < g.store.graph.nodePool.cap) ∧
        g.store.propPool.mark < g.store.propPool.cap ∧ (g.store.propData.storeValue enc).isSome := by
  by_cases hmem : .iri l.datatype ∈ keys
  · obtain ⟨dt, hdt⟩ := mem_iff_getElem?.1 hmem
    have hiri : g.resolveIri l.datatype = some (dt, g) :=
      h.resolveResource_of_mem (k := .iri l.datatype) rfl trivial hdt
    simp only [RdfGraph.resolve, RdfGraph.resolveLiteral, henc, hiri, h.lookup_eq_none hdt hnew, Option.bind_eq_bind,
      Option.bind_some, h.insertLiteral_isSome_iff, hmem, not_true_eq_false, false_imp_iff, true_and]
  · have hiri := h.resolveResource_of_notMem (k := .iri l.datatype) rfl trivial hmem
    cases hs : g.store.addNode with
    | none =>
      have hfull : ¬ (keys.length : Int) < g.store.graph.nodePool.cap := by
        rw [← h.addNode_isSome_iff, hs]
        simp
      rw [hs] at hiri
      have hiri' : g.resolveIri l.datatype = none := hiri
      simp [RdfGraph.resolve, RdfGraph.resolveLiteral, henc, hiri', hfull]
    | some s =>
      have hroom : (keys.length : Int) < g.store.graph.nodePool.cap := h.addNode_isSome_iff.1 (by rw [hs]; rfl)
      obtain ⟨hgrown, hsame⟩ := h.pushResource (k := .iri l.datatype) rfl trivial hmem hs
      have hiri' : g.resolveIri l.datatype = some (keys.length, g.withNode (.ofIri l.datatype) s) := by
        rw [hs] at hiri
        exact hiri
      have hdt : (keys ++ [.iri l.datatype])[keys.length]? = some (.iri l.datatype) := by simp
      have hlookup := hgrown.interned.lookup_eq_none hdt
        (show .literal l.datatype enc.bytes ∉ keys ++ [.iri l.datatype] by simpa using hnew)
      have hinsert := hgrown.interned.insertLiteral_isSome_iff l.datatype keys.length enc
      rw [hgrown.cap, hsame.pool, hsame.data] at hinsert
      simp only [RdfGraph.resolve, RdfGraph.resolveLiteral, henc, hiri', Option.bind_eq_bind, Option.bind_some]
      rw [show (g.withNode (.ofIri l.datatype) s).literalNodes.lookup (enc.bytes, keys.length) = none from hlookup]
      refine hinsert.trans ?_
      simp [hmem, hroom]

end Room

section Values

variable {d : PropertyData} {order : List (XsdType × BlobTable)} {enc : EncodedValue} {data : Bytes}
  {table : BlobTable}

/-- Values other than texts, and the first text, always have room. -/
theorem storeValue_isSome (h : ∀ data table, enc = .blob data → d.blobs.lookup .string ≠ some table) :
    (d.storeValue enc).isSome := by
  cases enc with
  | inlined bits | fixed kind v => rfl
  | blob data =>
    have hnone : d.blobs.lookup .string = none :=
      Option.eq_none_iff_forall_ne_some.2 fun table => h data table rfl
    have halloc : ((d.tableFor .string data.length).alloc data.length).isSome := by
      rw [BlobTable.alloc_isSome_iff, PropertyData.tableFor, hnone]
      exact ⟨(Nat.zero_add _).trans_le (Nat.le_max_right _ _), Nat.two_pow_pos 31⟩
    obtain ⟨⟨ptr, idx, t⟩, halloc⟩ := Option.isSome_iff_exists.1 halloc
    simp [PropertyData.storeValue, PropertyData.addBlob, halloc]

theorem storeValue_blob_isSome_iff (htable : d.blobs.lookup .string = some table) :
    (d.storeValue (.blob data)).isSome ↔
      table.usedBytes + data.length ≤ table.cap ∧ table.blobs.length < 2 ^ 31 := by
  have hfor : d.tableFor .string data.length = table := by rw [PropertyData.tableFor, htable]; rfl
  rw [← BlobTable.alloc_isSome_iff, PropertyData.storeValue, Option.isSome_map, PropertyData.addBlob, hfor]
  cases table.alloc data.length <;> rfl

/-- After a reload a text has room if it ends before the end of the others or
byte 1024. -/
theorem storeValue_reloaded_blob (d₀ : PropertyData) (hd : d.Valid) (horder : order.Perm d.blobs)
    (htable : d.blobs.lookup .string = some table) :
    ((PropertyData.reloaded d₀ d order).storeValue (.blob data)).isSome ↔
      table.usedBytes + data.length ≤ max table.usedBytes 1024 ∧ table.blobs.length < 2 ^ 31 := by
  have ht := hd.table _ (Assoc.mem_of_lookup htable)
  have hlookup := PropertyData.lookup_reloaded d₀ hd horder .string
  rw [htable] at hlookup
  rw [storeValue_blob_isSome_iff hlookup, ht.usedBytes_reloaded, ht.blobs_reloaded]
  rfl

theorem storeValue_reloaded (d₀ : PropertyData) (hd : d.Valid) (horder : order.Perm d.blobs)
    (h : ∀ data table, enc = .blob data → d.blobs.lookup .string ≠ some table) :
    ((PropertyData.reloaded d₀ d order).storeValue enc).isSome := by
  refine storeValue_isSome fun data table henc hlookup => ?_
  rw [PropertyData.lookup_reloaded d₀ hd horder] at hlookup
  obtain ⟨t, ht, -⟩ := Option.map_eq_some_iff.1 hlookup
  exact h data t henc ht

end Values

/-! ## Terms after a reload -/

/-- Terms of `g` have their ids in `g'`, and others that `g` would give an id
get a new one. -/
structure Keeps (g g' : RdfGraph) : Prop where
  present : ∀ t id, t.key.isSome = true → g.meaning id = t.key → ∃ g'', g'.resolve t = some (id, g'')
  absent : ∀ t, (∀ id, g.meaning id ≠ t.key) → (g.resolve t).isSome →
    ∃ id g'', g'.resolve t = some (id, g'') ∧ g.nodes.size ≤ id

/-- A new text that the graph has room for, but not after a reload: the table
of the texts is restored with the bytes it uses, at least 1024, as its
capacity. -/
structure Outgrows (g : RdfGraph) (l : Literal) (data : Bytes) (table : BlobTable) : Prop where
  encode : l.encode = some (.blob data)
  new : ∀ id, g.meaning id ≠ some (.literal l.datatype data)
  nodes : g.store.graph.nodePool.mark < g.store.graph.nodePool.cap
  datatype : (∀ id, g.meaning id ≠ some (.iri l.datatype)) →
    g.store.graph.nodePool.mark + 1 < g.store.graph.nodePool.cap
  props : g.store.propPool.mark < g.store.propPool.cap
  texts : g.store.propData.blobs.lookup .string = some table
  count : table.blobs.length < 2 ^ 31
  fits : table.usedBytes + data.length ≤ table.cap
  outgrown : max table.usedBytes 1024 < table.usedBytes + data.length

theorem Described.notMem_iff (h : g.Described keys) {k : TermKey} : k ∉ keys ↔ ∀ id, g.meaning id ≠ some k := by
  simp only [h.meaning, mem_iff_getElem?, not_exists, ne_eq]

theorem Interned.outgrows_iff (h : g.Interned keys) {l : Literal} {data : Bytes} {table : BlobTable}
    (henc : l.encode = some (.blob data)) (hnew : .literal l.datatype data ∉ keys)
    (htable : g.store.propData.blobs.lookup .string = some table) : g.Outgrows l data table ↔
      (g.resolve (.literal l)).isSome ∧ max table.usedBytes 1024 < table.usedBytes + data.length := by
  rw [h.resolveLiteral_isSome_iff henc hnew, storeValue_blob_isSome_iff htable, h.notMem_iff, ← h.store.nodeMark]
  constructor
  · intro ho
    exact ⟨⟨ho.nodes, ho.datatype, ho.props, ho.fits, ho.count⟩, ho.outgrown⟩
  · intro ⟨⟨hnodes, hdatatype, hprops, hfits, hcount⟩, hout⟩
    exact ⟨henc, h.notMem_iff.1 hnew, hnodes, hdatatype, hprops, htable, hcount, hfits, hout⟩

/-- **A new literal after a reload** gets a node if it got one before, unless
it is a text that does not fit any more. -/
theorem Interned.resolveLiteral_readBack (h : g.Interned keys) (h' : g'.Interned keys)
    (hback : ReadBack g.store g'.store) {l : Literal} {enc : EncodedValue} (henc : l.encode = some enc)
    (hnew : .literal l.datatype enc.bytes ∉ keys) (hsome : (g.resolve (.literal l)).isSome) :
    (g'.resolve (.literal l)).isSome ↔ ¬ ∃ data table, g.Outgrows l data table := by
  obtain ⟨d₀, order, horder, hdata⟩ := hback.data
  have hd := h.store.data.toValid
  have hroom := (h.resolveLiteral_isSome_iff henc hnew).1 hsome
  rw [h'.resolveLiteral_isSome_iff henc hnew, hback.nodePool, hback.propPool, hdata]
  by_cases hblob : ∃ data table, enc = .blob data ∧ g.store.propData.blobs.lookup .string = some table
  · obtain ⟨data, table, rfl, htable⟩ := hblob
    have hcount := ((storeValue_blob_isSome_iff htable).1 hroom.2.2.2).2
    rw [storeValue_reloaded_blob d₀ hd horder htable]
    constructor
    · rintro ⟨-, -, -, hfits, -⟩ ⟨data', table', ho⟩
      cases henc.symm.trans ho.encode
      cases htable.symm.trans ho.texts
      exact absurd ho.outgrown (Nat.not_lt_of_le hfits)
    · intro hnot
      refine ⟨hroom.1, hroom.2.1, hroom.2.2.1, Nat.le_of_not_lt fun hout => ?_, hcount⟩
      exact hnot ⟨data, table, (h.outgrows_iff henc hnew htable).2 ⟨hsome, hout⟩⟩
  · have hno : ∀ data table, enc = .blob data → g.store.propData.blobs.lookup .string ≠ some table :=
      fun data table he ht => hblob ⟨data, table, he, ht⟩
    refine iff_of_true ⟨hroom.1, hroom.2.1, hroom.2.2.1, storeValue_reloaded d₀ hd horder hno⟩ ?_
    rintro ⟨data, table, ho⟩
    cases henc.symm.trans ho.encode
    exact hno data table rfl ho.texts

/-- A new resource gets a node after a reload if it got one before. -/
theorem Described.resolveResource_readBack (h : g.Described keys) (h' : g'.Described keys)
    (hback : ReadBack g.store g'.store) {k : TermKey} (hk : k.isLiteral = false) (hc : k.Clean) (hnew : k ∉ keys)
    (hsome : (g.resolveResource k.nodeId).isSome) : (g'.resolveResource k.nodeId).isSome := by
  rw [h'.resolveResource_isSome_iff hk hc hnew, hback.nodePool]
  exact (h.resolveResource_isSome_iff hk hc hnew).1 hsome

/-- A new term that gets a node gets a new one. -/
theorem Interned.le_of_resolve (h' : g'.Interned keys) {t : Term} {id : Nat} {g'' : RdfGraph}
    (hnew : ∀ k, t.key = some k → k ∉ keys) (hrun : g'.resolve t = some (id, g'')) : keys.length ≤ id := by
  obtain ⟨k, keys', hk, hg, hid, -⟩ := h'.resolve hrun
  by_contra hlt
  obtain ⟨k', hk'⟩ : ∃ k', keys[id]? = some k' := ⟨_, getElem?_eq_getElem (Nat.lt_of_not_le hlt)⟩
  cases (hg.getElem? hk').symm.trans hid
  exact hnew k hk (mem_of_getElem? hk')

/-- **With the cache of the literals** a graph keeps its terms exactly if no
new text outgrows the table that is read back. -/
theorem Interned.keeps_iff (h : g.Interned keys) (h' : g'.Interned keys) (hback : ReadBack g.store g'.store) :
    g.Keeps g' ↔ ¬ ∃ l data table, g.Outgrows l data table := by
  constructor
  · rintro hkeeps ⟨l, data, table, ho⟩
    have hnew : .literal l.datatype data ∉ keys := h.notMem_iff.2 ho.new
    have hsome := ((h.outgrows_iff ho.encode hnew ho.texts).1 ho).1
    have hkey : (Term.literal l).key = some (.literal l.datatype data) := by rw [Term.key, ho.encode]; rfl
    obtain ⟨id, g'', hrun, -⟩ := hkeeps.absent (.literal l) (hkey ▸ ho.new) hsome
    exact (h.resolveLiteral_readBack h' hback ho.encode hnew hsome).1 (by rw [hrun]; rfl) ⟨data, table, ho⟩
  · intro hnot
    refine ⟨fun t id ht hid => ?_, fun t ht hsome => ?_⟩
    · obtain ⟨k, hk⟩ := Option.isSome_iff_exists.1 ht
      rw [h.meaning, hk] at hid
      exact ⟨g', h'.resolve_of_getElem? hk hid⟩
    · have hnew : ∀ k, t.key = some k → k ∉ keys := fun k hk => h.notMem_iff.2 (hk ▸ ht)
      have hsome' : (g'.resolve t).isSome := by
        cases t with
        | iri a =>
          exact h.resolveResource_readBack h'.toDescribed hback (k := .iri a) rfl trivial (hnew _ rfl) hsome
        | bnode label =>
          exact h.resolveResource_readBack h'.toDescribed hback (k := .bnode label.bytes) rfl label.noZero
            (hnew _ rfl) hsome
        | literal l =>
          obtain ⟨⟨id, g''⟩, hrun⟩ := Option.isSome_iff_exists.1 hsome
          obtain ⟨k, -, hk, -⟩ := h.resolve hrun
          obtain ⟨enc, henc, rfl⟩ := Option.map_eq_some_iff.1 hk
          exact (h.resolveLiteral_readBack h' hback henc (hnew _ hk) hsome).2
            fun ⟨data, table, ho⟩ => hnot ⟨l, data, table, ho⟩
      obtain ⟨⟨id, g''⟩, hrun⟩ := Option.isSome_iff_exists.1 hsome'
      exact ⟨id, g'', hrun, h.size ▸ h'.le_of_resolve hnew hrun⟩

/-- Without the cache a literal that is there gets another node. -/
theorem Described.resolveLiteral_ne {l : Literal} {enc : EncodedValue} {id id' : Nat} {g'' : RdfGraph}
    (h : g.Described keys) (hcache : g.literalNodes = []) (henc : l.encode = some enc)
    (hid : keys[id]? = some (.literal l.datatype enc.bytes)) (hrun : g.resolve (.literal l) = some (id', g'')) :
    id' ≠ id := by
  obtain ⟨dt, hdt⟩ := mem_iff_getElem?.1 (h.datatype_mem hid)
  have hiri : g.resolveIri l.datatype = some (dt, g) :=
    h.resolveResource_of_mem (k := .iri l.datatype) rfl trivial hdt
  have hinsert : g.insertLiteral l.datatype dt enc = some (id', g'') := by
    simpa [RdfGraph.resolve, RdfGraph.resolveLiteral, henc, hiri, hcache] using hrun
  obtain ⟨-, -, -, -, -, -, -, rfl, -⟩ := h.insertLiteral_eq_some.1 hinsert
  exact Nat.ne_of_gt (List.getElem?_eq_some_iff.1 hid).1

/-- The graph has a node that is a literal. -/
def HasLiteral (g : RdfGraph) : Prop := ∃ id datatype data, g.meaning id = some (.literal datatype data)

theorem Described.hasLiteral_iff (h : g.Described keys) : g.HasLiteral ↔ ∃ k ∈ keys, k.isLiteral := by
  constructor
  · intro ⟨id, datatype, data, hid⟩
    rw [h.meaning] at hid
    exact ⟨_, mem_of_getElem? hid, rfl⟩
  · intro ⟨k, hk, hlit⟩
    obtain ⟨id, hid⟩ := mem_iff_getElem?.1 hk
    cases k with
    | iri a | bnode a => cases hlit
    | literal datatype data => exact ⟨id, datatype, data, by rw [h.meaning, hid]⟩

/-- Without the cache a literal loses its id. -/
theorem Described.not_keeps (h : g.Described keys) (h' : g'.Described keys) (hcache : g'.literalNodes = [])
    (hlit : g.HasLiteral) : ¬ g.Keeps g' := by
  obtain ⟨k, hk, hlit⟩ := h.hasLiteral_iff.1 hlit
  obtain ⟨id, hid⟩ := mem_iff_getElem?.1 hk
  obtain ⟨t, ht⟩ := h.terms k hk
  intro hkeeps
  obtain ⟨g'', hrun⟩ := hkeeps.present t id (by rw [ht]; rfl) (by rw [h.meaning, hid, ht])
  cases t with
  | iri a | bnode a => cases ht; cases hlit
  | literal l =>
    obtain ⟨enc, henc, rfl⟩ := Option.map_eq_some_iff.1 ht
    exact h'.resolveLiteral_ne hcache henc hid hrun rfl

/-- Without literals the empty cache is complete. -/
theorem Described.interned (h : g.Described keys) (h' : g'.Described keys) (hcache : g'.literalNodes = [])
    (hlit : ¬ g.HasLiteral) : g'.Interned keys := by
  refine ⟨h', fun data dt id => ?_⟩
  rw [hcache]
  refine ⟨nofun, fun ⟨datatype, _, hid⟩ => ?_⟩
  exact absurd (h.hasLiteral_iff.2 ⟨_, mem_of_getElem? hid, rfl⟩) hlit

/-- The number of bytes of a literal. -/
def literalLength : TermKey → Nat
  | .literal _ data => data.length
  | _ => 0

theorem literal_lt {b : Nat} (h : ∀ id < g.nodes.size, ∀ k ∈ g.meaning id, literalLength k < b) (id : Nat)
    (datatype data : Bytes) (hid : g.meaning id = some (.literal datatype data)) : data.length < b := by
  refine h id (Nat.lt_of_not_le fun hle => ?_) _ hid
  have hget : g.nodes.get id = none := getElem?_eq_none hle
  simp [meaning, hget] at hid

/-- **Flushed, stored in the catalog and opened in a new process**, a graph
built by `addTriple` keeps its terms unless its format is `BINARY` and it has
literals, or a new text outgrows the table that is read back. -/
theorem reopen_keeps_iff {fileName sourceFileName : String} {iri : Bytes}
    {nodeCapacity relCapacity propCapacity : Int} {calls : List (List Slot × Triple)} {ids : List TripleIds}
    {order : List (XsdType × BlobTable)} (dbDir : String) (now : Nat) (disk : Disk) (hn : IsCapacity nodeCapacity)
    (hr : IsCapacity relCapacity) (hp : IsCapacity propCapacity)
    (hrun : (create fileName iri sourceFileName nodeCapacity relCapacity propCapacity).addTriples calls =
      some (ids, g)) (hname : fileName ≠ "") (hdir : dbDir ≠ "")
    (hsize : ∀ id datatype data, g.meaning id = some (.literal datatype data) → data.length < 2 ^ 32)
    (horder : order.Perm g.store.propData.blobs) (htime : ∀ path f, disk path = some f → f.time ≤ now)
    (format : RDFFileFormat) (p : Parsers) (argOrder : Triple → List Slot) :
    ∃ g', (g.setDBDir dbDir).reopen format p argOrder ((g.setDBDir dbDir).storage.flush order now disk) = .ok g' ∧
      (g.Keeps g' ↔
        (format = .binary → ¬ g.HasLiteral) ∧ ¬ ∃ l data table, g.Outgrows l data table) := by
  obtain ⟨keys, h, hl, -, hframe⟩ := interned_addTriples hn hr hp hrun
  have hdesc : (g.setDBDir dbDir).Described keys := { h.toDescribed with store := h.store }
  have hname' : (g.setDBDir dbDir).storage.fileName ≠ "" := by
    have hfile : g.frame.storage.fileName = fileName := by rw [hframe]; rfl
    exact hfile ▸ hname
  have hsize' : ∀ datatype data, .literal datatype data ∈ keys → data.length < 2 ^ 32 := by
    intro datatype data hmem
    obtain ⟨id, hid⟩ := mem_iff_getElem?.1 hmem
    exact hsize id datatype data (by rw [h.meaning, hid])
  obtain ⟨g', hopen, hdesc', hback, hcache⟩ := hdesc.reopen hl.free hsize' hname' horder now disk rfl hdir htime
    format p argOrder
  refine ⟨g', hopen, ?_⟩
  split at hcache
  · next hbin =>
    by_cases hlit : g.HasLiteral
    · exact iff_of_false (h.not_keeps hdesc' hcache hlit) fun hcond => hcond.1 hbin hlit
    · rw [h.keeps_iff (h.interned hdesc' hcache hlit) hback]
      exact (and_iff_right fun _ => hlit).symm
  · next hsrc =>
    rw [h.keeps_iff hcache hback]
    exact (and_iff_right fun hbin => absurd hbin hsrc).symm

def noParsers : Parsers where
  rdf _ _ := []
  fuzzyTTL _ _ := .error ""

/-- `reopen` of a graph of one triple after a flush. -/
def reopenTriple (format : RDFFileFormat) (t : Triple) : Option (RdfGraph × RdfGraph) := do
  let (_, g) ← (create "g" (ascii "g") "" 8 8 8).addTriples [([.subject, .predicate, .object], t)]
  let g := g.setDBDir "d"
  let g' ← (g.reopen format noParsers (fun _ => [.subject, .predicate, .object])
    (g.storage.flush g.store.propData.blobs 1 fun _ => none)).toOption
  return (g, g')

/-- A text of 1100 bytes. -/
def longText : Term :=
  .literal { datatype := ascii "d", value := .other, languageTag := [], lexicalForm := replicate 1100 65 }

/-- The literal is node 3; after a reload of a `BINARY` graph it becomes
node 4. A long text would be node 4, but after a reload of a `TURTLE` graph
there is no room for it. -/
theorem reopen_loses_literals :
    ((reopenTriple .binary literalTriple).map fun r => r.map
        (fun g => (g.resolve literalTriple.object).map (·.1)) fun g' => (g'.resolve literalTriple.object).map (·.1)) =
      some (some 3, some 4) ∧
    ((reopenTriple .turtle literalTriple).map fun r => r.map
        (fun g => (g.resolve longText).map (·.1)) fun g' => (g'.resolve longText).map (·.1)) =
      some (some 4, none) := by
  decide +kernel

/-- A number needs no table of texts. -/
def longTriple : Triple :=
  { literalTriple with
    object := .literal { datatype := XsdType.xsdIri "long", value := .bits 5, languageTag := [], lexicalForm := [] } }

theorem reopen_keeps_long : ∃ ids g g',
    (create "g" (ascii "g") "" 8 8 8).addTriples [([.subject, .predicate, .object], longTriple)] = some (ids, g) ∧
      (g.setDBDir "d").reopen .turtle noParsers (fun _ => [.subject, .predicate, .object])
        ((g.setDBDir "d").storage.flush g.store.propData.blobs 1 fun _ => none) = .ok g' ∧ g.Keeps g' := by
  have hsmall : (((create "g" (ascii "g") "" 8 8 8).addTriples
      [([.subject, .predicate, .object], longTriple)]).map fun r =>
        (r.2.store.propData.blobs.lookup .string).isNone &&
          decide (∀ id < r.2.nodes.size, ∀ k ∈ r.2.meaning id, literalLength k < 2 ^ 32)) = some true := by
    decide +kernel
  obtain ⟨⟨ids, g⟩, hrun, hsmall⟩ := Option.map_eq_some_iff.1 hsmall
  simp only [Bool.and_eq_true, decide_eq_true_eq, Option.isNone_iff_eq_none] at hsmall
  obtain ⟨htexts, hshort⟩ := hsmall
  obtain ⟨g', hopen, hkeeps⟩ := reopen_keeps_iff "d" 1 (fun _ => none) (by decide) (by decide) (by decide) hrun
    (by decide) (by decide) (literal_lt hshort) (List.Perm.refl _) (by simp) .turtle noParsers
    fun _ => [.subject, .predicate, .object]
  refine ⟨ids, g, g', hrun, hopen, hkeeps.2 ⟨nofun, ?_⟩⟩
  rintro ⟨l, data, table, ho⟩
  cases htexts.symm.trans ho.texts

end RdfGraph
end GengoDB
