/-
What a graph looks like after it was flushed and loaded again. Every record
below the marks and every value comes back (`ensureLoaded_flush`), but the
free lists do not: `deserialize` empties them and hands out every slot below
the mark, so a slot that was free counts as live and cannot be reused
(`reload_counts_iff`).
-/
import GengoDB.GraphFile
import GengoDB.Ranges

namespace GengoDB

open Codec PropertyData List
open Function (update update_self update_of_ne)

/-! ## Packed records -/

namespace GraphData

theorem unpackNode_packNode {e : NodeEntry Int} (h : e.Machine) (b : NodeBytes) :
    unpackNode (packNode e b) = (e, b) := by
  simp [unpackNode, packNode, h.firstRelId.toInt_ofInt, h.payload.toInt_ofInt]

theorem unpackRel_packRel {e : RelEntry Int} (h : e.Machine) (b : Byte) : unpackRel (packRel e b) = (e, b) := by
  simp [unpackRel, packRel, h.firstNodeId.toInt_ofInt, h.secondNodeId.toInt_ofInt, h.firstPrevRelId.toInt_ofInt,
    h.firstNextRelId.toInt_ofInt, h.secondPrevRelId.toInt_ofInt, h.secondNextRelId.toInt_ofInt,
    h.payload.toInt_ofInt]

theorem unpackProp_packProp {e : PropRecord} (h : e.Machine) : unpackProp (packProp e) = e := by
  simp [unpackProp, packProp, h.nextPropId.toInt_ofInt, h.prevPropId.toInt_ofInt]

end GraphData

namespace Neo4J

theorem reads_bool (b : Bool) : Reads bool (putBool b) b := by
  have h := (Reads.le (n := 1) (x := b.toNat) (by cases b <;> decide)).map (· != 0)
  cases b <;> exact h

theorem reads_u32 (u : UInt32) : Reads u32 (putU32 u) u := by
  have h := (Reads.le (n := 4) u.toNat_lt).map UInt32.ofNat
  rwa [UInt32.ofNat_toNat] at h

theorem reads_i32 (i : Int32) : Reads i32 (putI32 i) i := by
  have h := (reads_u32 i.toUInt32).map UInt32.toInt32
  simpa [i32, u32, putI32, putU32] using h

theorem reads_byte (b : Byte) : Reads byte (putByte b) b := by
  have h := (Reads.le (n := 1) b.isLt).map (Fin.ofNat 256)
  rwa [Fin.ofNat_val_eq_self] at h

theorem reads_labels (l : Fin 5 → Byte) : Reads labels (ofFn l) l := by
  have h := (Reads.raw (ofFn l)).map fun l (i : Fin 5) => l.getD i 0
  have hget : (fun i : Fin 5 => (ofFn l).getD i 0) = l := by
    funext i
    rw [List.getD_eq_getElem?_getD, List.getElem?_ofFn]
    simp
  rwa [hget] at h

theorem reads_nodeEntry (e : NodeEntry) : Reads nodeEntry e.put e :=
  (reads_bool _).bind <| (reads_i32 _).bind <| (reads_u32 _).bind <| (reads_labels _).bind <|
    (reads_byte _).seq (.pure _) (append_nil _).symm

theorem reads_relEntry (e : RelEntry) : Reads relEntry e.put e :=
  (reads_bool _).bind <| (reads_i32 _).bind <| (reads_i32 _).bind <| (reads_i32 _).bind <| (reads_i32 _).bind <|
    (reads_i32 _).bind <| (reads_i32 _).bind <| (reads_i32 _).bind <| (reads_u32 _).bind <|
    (reads_byte _).seq (.pure _) (append_nil _).symm

theorem reads_propRecord (e : PropRecord) : Reads propRecord e.put e :=
  (reads_bool _).bind <| (reads_i32 _).bind <| (reads_i32 _).bind <| (reads_u32 _).bind <| (reads_u32 _).bind <|
    (reads_u32 _).seq (.pure _) (append_nil _).symm

end Neo4J

/-! ## Filling a table -/

variable {p : Pool}

namespace GraphData

variable {α : Type}

/-- `es` fit into the table from the mark on, and then lie there in a row. -/
theorem fill_eq_some (row : Int → α) (es : List α) (h : p.mark + es.length ≤ p.cap) :
    ∃ row', fill p row es = some ({ p with mark := p.mark + es.length }, row') ∧
      (∀ k (hk : k < es.length), row' (p.mark + k) = es[k]) ∧
      ∀ i, i < p.mark ∨ p.mark + es.length ≤ i → row' i = row i := by
  induction es generalizing p row with
  | nil => exact ⟨row, by simp [fill], by simp, by simp⟩
  | cons e es ih =>
    simp only [length_cons] at h
    have hlt : p.mark < p.cap := by omega
    obtain ⟨row', hfill, hget, hrest⟩ := ih (p := { p with mark := p.mark + 1 }) (update row p.mark e)
      (by simp only; omega)
    refine ⟨row', ?_, ?_, ?_⟩
    · simp only [fill, next, if_pos hlt, Option.bind_eq_bind, Option.bind_some, hfill]
      simp only [length_cons, Option.some.injEq, Prod.mk.injEq, Pool.mk.injEq, and_true]
      omega
    · intro k hk
      cases k with
      | zero => simpa using hrest p.mark (.inl (Int.lt_succ p.mark))
      | succ k =>
        have hk' := hget k (by simpa using hk)
        simpa [add_comm, add_left_comm] using hk'
    · intro i hi
      simp only [length_cons] at hi
      rw [hrest i (by simp only; omega), update_of_ne (by omega)]

/-- A table filled with what lies below the mark of another. -/
theorem fill_below {q : Pool} (row : Int → α) {β : Type} (f : β → α) (src : Int → β) (hp : p.Machine)
    (hcap : q.cap = p.cap) : ∃ row', fill (clear q) row ((below p src).map f) = some ({ p with free := [] }, row') ∧
      (∀ i, 0 ≤ i → i < p.mark → row' i = f (src i)) ∧ ∀ i, i < 0 ∨ p.mark ≤ i → row' i = row i := by
  have hnonneg := hp.mark_nonneg
  have hlen : ((below p src).map f).length = p.mark.toNat := by simp [below]
  have hle := hp.mark_le
  obtain ⟨row', hfill, hget, hrest⟩ := fill_eq_some (p := clear q) row ((below p src).map f)
    (by rw [clear]; simp only; omega)
  have hpool : { clear q with mark := (clear q).mark + ((below p src).map f).length } = { p with free := [] } := by
    rw [hlen, clear, hcap]
    simp [hnonneg]
  rw [hpool] at hfill
  refine ⟨row', hfill, fun i hi hlt => ?_, fun i hi => hrest i ?_⟩
  · have hk := hget i.toNat (by omega)
    simpa [clear, below, hi] using hk
  · simp only [clear]
    omega

/-- Records below the marks of `s` as they are in `s'`. -/
structure SameRecords (s s' : PropertyStore) : Prop where
  node : ∀ i, 0 ≤ i → i < s.graph.nodePool.mark →
    s'.graph.nodes i = s.graph.nodes i ∧ s'.nodeBytes i = s.nodeBytes i
  rel : ∀ i, 0 ≤ i → i < s.graph.relPool.mark →
    s'.graph.rels i = s.graph.rels i ∧ s'.firstInChainMarker i = s.firstInChainMarker i
  prop : ∀ i, 0 ≤ i → i < s.propPool.mark → s'.props i = s.props i

/-- What `deserialize` makes of the pools. -/
structure PoolsReset (s s' : PropertyStore) : Prop where
  node : s'.graph.nodePool = { s.graph.nodePool with free := [] }
  rel : s'.graph.relPool = { s.graph.relPool with free := [] }
  prop : s'.propPool = { s.propPool with free := [] }

/-- Records `s` has no slots for are as they were in `s₀`. -/
structure RestKept (s s₀ s' : PropertyStore) : Prop where
  node : ∀ i, i < 0 ∨ s.graph.nodePool.mark ≤ i → s'.graph.nodes i = s₀.graph.nodes i
  rel : ∀ i, i < 0 ∨ s.graph.relPool.mark ≤ i → s'.graph.rels i = s₀.graph.rels i
  prop : ∀ i, i < 0 ∨ s.propPool.mark ≤ i → s'.props i = s₀.props i

structure SameCapacities (s s' : PropertyGraph) : Prop where
  node : s'.graph.nodePool.cap = s.graph.nodePool.cap
  rel : s'.graph.relPool.cap = s.graph.relPool.cap
  prop : s'.propPool.cap = s.propPool.cap

theorem deserialize_serialize {s s0 : PropertyStore} (hs : s.toPropertyGraph.Machine)
    (hcap : SameCapacities s.toPropertyGraph s0.toPropertyGraph) :
    ∃ s', deserialize s0 (serialize s) = some s' ∧ PoolsReset s s' ∧ SameRecords s s' ∧ RestKept s s0 s' ∧
      s'.propData = s0.propData := by
  obtain ⟨nodes, hnodes, hnode, hnode'⟩ := fill_below (fun i => (s0.graph.nodes i, s0.nodeBytes i)) unpackNode
    (fun i => packNode (s.graph.nodes i) (s.nodeBytes i)) hs.nodePool hcap.node
  obtain ⟨rels, hrels, hrel, hrel'⟩ := fill_below (fun i => (s0.graph.rels i, s0.firstInChainMarker i)) unpackRel
    (fun i => packRel (s.graph.rels i) (s.firstInChainMarker i)) hs.relPool hcap.rel
  obtain ⟨props, hprops, hprop, hprop'⟩ := fill_below s0.props unpackProp
    (fun i => packProp (s.props i)) hs.propPool hcap.prop
  refine ⟨withTables s0 (_, nodes) (_, rels) (_, props), ?_, ⟨rfl, rfl, rfl⟩, ⟨?_, ?_, ?_⟩,
    ⟨fun i hi => congrArg Prod.fst (hnode' i hi), fun i hi => congrArg Prod.fst (hrel' i hi), hprop'⟩, rfl⟩
  · simp only [deserialize, serialize, hnodes, hrels, hprops]
    rfl
  · intro i hi hlt
    have h := hnode i hi hlt
    rw [unpackNode_packNode (hs.graph.nodes i)] at h
    simp [withTables, h]
  · intro i hi hlt
    have h := hrel i hi hlt
    rw [unpackRel_packRel (hs.graph.rels i)] at h
    simp [withTables, h]
  · intro i hi hlt
    have h := hprop i hi hlt
    rwa [unpackProp_packProp (hs.props i)] at h

end GraphData

/-! ## Flush and load -/

namespace GengoDBGraph

open GraphData

theorem reads_header {g : Neo4JGraph} (hn : g.nodes.length < 2 ^ 32) (hr : g.rels.length < 2 ^ 32)
    (hp : g.props.length < 2 ^ 32) :
    Reads header (putHeader g) (graphFileMagic, g.nodes.length, g.rels.length, g.props.length) :=
  (Reads.le (by decide)).bind <| (Reads.le hn).bind <| (Reads.le hr).bind <|
    (Reads.le hp).seq (.pure _) (append_nil _).symm

variable {s : PropertyStore} {g : GengoDBGraph}

/-- A file holding `g` and then `bytes`, which the value pools are read
from. -/
theorem reads_contents {s' : PropertyStore} {g : Neo4JGraph} {bytes : List Byte} {d : PropertyData}
    (hs : deserialize s g = some s') (hd : Reads s'.propData.load bytes d) :
    Reads (contents s g.nodes.length g.rels.length g.props.length)
      (g.nodes.flatMap (·.put) ++ (g.rels.flatMap (·.put) ++ (g.props.flatMap (·.put) ++ bytes)))
      { s' with propData := d } := by
  have hnodes := Reads.repeated (f := id) (l := g.nodes) fun e _ => Neo4J.reads_nodeEntry e
  have hrels := Reads.repeated (f := id) (l := g.rels) fun e _ => Neo4J.reads_relEntry e
  have hprops := Reads.repeated (f := id) (l := g.props) fun e _ => Neo4J.reads_propRecord e
  rw [map_id] at hnodes hrels hprops
  refine hnodes.bind (hrels.bind (hprops.bind ?_))
  exact (Reads.check hs).seq (hd.seq (.pure _) (append_nil _).symm) (nil_append _).symm

/-- The store is one the program can hold, and its counts fit the file. -/
structure Storable (s : PropertyStore) : Prop where
  machine : s.toPropertyGraph.Machine
  valid : s.propData.Valid
  fits : s.propData.Fits32

theorem serialize_lengths_lt (hs : s.toPropertyGraph.Machine) :
    (serialize s).nodes.length < 2 ^ 32 ∧ (serialize s).rels.length < 2 ^ 32 ∧ (serialize s).props.length < 2 ^ 32 := by
  have hlt : ∀ p : Pool, p.Machine → p.mark.toNat < 2 ^ 32 := by
    intro p hp
    have hle := hp.mark_le
    have hcap := hp.cap_lt
    omega
  simp only [serialize, below, length_map, length_range]
  exact ⟨hlt _ hs.nodePool, hlt _ hs.relPool, hlt _ hs.propPool⟩

variable {order : List (XsdType × BlobTable)}

/-- **Reading an image** into a graph of the same capacities. -/
theorem readFile_image (s0 : PropertyStore) (hs : Storable s)
    (horder : order.Perm s.propData.blobs) (hcap : SameCapacities s.toPropertyGraph s0.toPropertyGraph)
    (h0 : s0.propData.blobs = []) (path : String) :
    ∃ s', readFile s0 path (image s order) = .ok s' ∧ PoolsReset s s' ∧ SameRecords s s' ∧ RestKept s s0 s' ∧
      s'.propData = .reloaded s0.propData s.propData order := by
  obtain ⟨s', hdes, hpools, hrecs, hrest, hdata⟩ := deserialize_serialize hs.machine hcap
  obtain ⟨hn, hr, hp⟩ := serialize_lengths_lt hs.machine
  have hload : Reads s'.propData.load (s.propData.flush order) (.reloaded s0.propData s.propData order) := by
    rw [hdata]
    exact reads_flush hs.valid hs.fits horder h0
  refine ⟨{ s' with propData := .reloaded s0.propData s.propData order }, ?_, ⟨hpools.node, hpools.rel, hpools.prop⟩,
    ⟨hrecs.node, hrecs.rel, hrecs.prop⟩, ⟨hrest.node, hrest.rel, hrest.prop⟩, rfl⟩
  unfold readFile image
  simp only [reads_header hn hr hp _, (reads_contents hdes hload).run, Option.pure_def]
  rfl

/-- The object a new process makes for the graph, with the same capacities. -/
def reopened (g : GengoDBGraph) : GengoDBGraph :=
  { create g.fileName g.storage.graph.nodePool.cap g.storage.graph.relPool.cap g.storage.propPool.cap with
    dbDir := g.dbDir }

/-- An empty graph with a file takes it up. -/
theorem ensureLoaded_of_file {disk : Disk} {f : File} (hloaded : g.loaded = false)
    (hmark : g.storage.graph.nodePool.mark = 0) (hdir : g.dbDir ≠ "") (hname : g.fileName ≠ "")
    (hfile : disk g.graphPath = some f) : g.ensureLoaded disk =
      (readFile g.storage g.graphPath f.content).map fun storage => { g with loaded := true, storage } := by
  have hpath : { g with loaded := true }.graphPath = g.graphPath := rfl
  simp only [ensureLoaded, hloaded, hpath, hfile, hmark]
  simp [hdir, hname]

theorem flush_graphPath (hdir : g.dbDir ≠ "") (hname : g.fileName ≠ "") (order : List (XsdType × BlobTable)) (now : Nat)
    (disk : Disk) : g.flush order now disk g.graphPath = some { content := image g.storage order, time := now } := by
  simp [flush, hdir, hname]

/-- Flushing a graph and loading it in a new process. -/
theorem ensureLoaded_reopened (hg : Storable g.storage) (hdir : g.dbDir ≠ "")
    (hname : g.fileName ≠ "") (horder : order.Perm g.storage.propData.blobs) (now : Nat) (disk : Disk) :
    ∃ g', g.reopened.ensureLoaded (g.flush order now disk) = .ok g' ∧ PoolsReset g.storage g'.storage ∧
      SameRecords g.storage g'.storage ∧ RestKept g.storage g.reopened.storage g'.storage ∧
      g'.storage.propData = .reloaded (.create g.storage.propPool.cap) g.storage.propData order := by
  obtain ⟨s', hread, hs'⟩ := readFile_image g.reopened.storage hg horder ⟨rfl, rfl, rfl⟩ rfl g.graphPath
  have hload := ensureLoaded_of_file (g := g.reopened) rfl rfl hdir hname (flush_graphPath hdir hname order now disk)
  refine ⟨{ g.reopened with loaded := true, storage := s' }, hload.trans ?_, hs'⟩
  rw [show g.reopened.graphPath = g.graphPath from rfl, hread]
  rfl

/-- `s'` holds every record below the marks of `s` and every value under its
index. -/
structure Restores (s s' : PropertyStore) : Prop extends SameRecords s s' where
  nodeHighWater : s'.graph.nodePool.mark = s.graph.nodePool.mark
  relHighWater : s'.graph.relPool.mark = s.graph.relPool.mark
  propHighWater : s'.propPool.mark = s.propPool.mark
  i64 : ∀ idx : Nat, s'.propData.i64[idx]? = s.propData.i64[idx]?
  ui64 : ∀ idx : Nat, s'.propData.ui64[idx]? = s.propData.ui64[idx]?
  double : ∀ idx : Nat, s'.propData.double[idx]? = s.propData.double[idx]?
  blob : ∀ type idx, s'.propData.getBlob type idx = s.propData.getBlob type idx

theorem restores_reloaded {s s' : PropertyStore} {d₀ : PropertyData} (hs : s.propData.Valid)
    (horder : order.Perm s.propData.blobs) (hpools : PoolsReset s s') (hrecs : SameRecords s s')
    (hdata : s'.propData = .reloaded d₀ s.propData order) : Restores s s' := by
  refine ⟨hrecs, ?_, ?_, ?_, ?_, ?_, ?_, ?_⟩
  · rw [hpools.node]
  · rw [hpools.rel]
  · rw [hpools.prop]
  · simp [hdata, reloaded]
  · simp [hdata, reloaded]
  · simp [hdata, reloaded]
  · intro type idx
    rw [hdata, getBlob_reloaded _ hs horder]

/-- **Loading restores what was flushed**, in whatever order the map of blob
tables was written. -/
theorem ensureLoaded_restores_flush (g : GengoDBGraph) (order : List (XsdType × BlobTable)) (now : Nat) (disk : Disk)
    (hg : Storable g.storage) (hdir : g.dbDir ≠ "") (hname : g.fileName ≠ "")
    (horder : order.Perm g.storage.propData.blobs) :
    ∃ g', g.reopened.ensureLoaded (g.flush order now disk) = .ok g' ∧ Restores g.storage g'.storage := by
  obtain ⟨g', hload, hpools, hrecs, -, hdata⟩ := ensureLoaded_reopened hg hdir hname horder now disk
  exact ⟨g', hload, restores_reloaded hg.valid horder hpools hrecs hdata⟩

/-- Two nodes, the second one free, a 64-bit value and two tables of blobs. -/
def twoTables : GengoDBGraph where
  storage :=
    { PropertyStore.create 2 2 2 with
      graph := { (Graph.create 2 2 : Graph Int Int) with
        nodes := fun i => { firstRelId := graphNone, inUse := decide (i = 0), payload := graphNone }
        nodePool := { mark := 2, cap := 2, free := [] } }
      propData := { PropertyData.create 2 with
        i64 := [7]
        blobs := [(.string, { cap := 8, data := fun i => if i < 3 then 97 else 98, blobs := [(0, 3), (3, 2)] }),
          (.decimal, { cap := 4, data := fun _ => 49, blobs := [(0, 1)] })] } }
  fileName := "g"
  dbDir := "db"
  loaded := true

theorem storable_twoTables : Storable twoTables.storage where
  machine :=
    { graph := ⟨fun _ => ⟨.none, .none⟩, fun _ => ⟨.zero, .zero, .zero, .zero, .zero, .zero, .zero⟩, by decide, by decide⟩
      props := fun _ => ⟨.zero, .zero⟩
      propCap := by decide
      nodePool := ⟨by decide, by decide, by decide⟩
      relPool := ⟨by decide, by decide, by decide⟩
      propPool := ⟨by decide, by decide, by decide⟩ }
  valid := ⟨by decide, by simp [twoTables]; exact ⟨⟨rfl, by decide⟩, rfl, by decide⟩⟩
  fits := by constructor <;> decide

/-- The tables are written in the other order. -/
theorem twoTables_restored : ∃ g', twoTables.reopened.ensureLoaded (twoTables.flush
    twoTables.storage.propData.blobs.reverse 0 fun _ => none) = .ok g' ∧ g'.storage.graph.nodePool.mark = 2 ∧
      (g'.storage.graph.nodes 0).inUse = true ∧ (g'.storage.graph.nodes 1).inUse = false ∧
      g'.storage.propData.getBlob .string 1 = some [98, 98] ∧ g'.storage.propData.getBlob .decimal 0 = some [49] := by
  obtain ⟨g', hload, hg'⟩ := ensureLoaded_restores_flush twoTables _ 0 (fun _ => none) storable_twoTables (by decide)
    (by decide) (reverse_perm _)
  refine ⟨g', hload, hg'.nodeHighWater, ?_, ?_, ?_, ?_⟩
  · rw [(hg'.node 0 (by decide) (by decide)).1]
    rfl
  · rw [(hg'.node 1 (by decide) (by decide)).1]
    rfl
  · rw [hg'.blob]
    rfl
  · rw [hg'.blob]
    rfl

/-! ## Counts -/

/-- `nodeCount`, `relCount` and `propCount` of a table: the slots below the
mark that are not free. -/
def liveCount (p : Pool) : Int := p.mark - p.free.length

/-- As many slots can still be handed out. -/
def SameRoom (p p' : Pool) : Prop := ∀ n, (p'.allocs n).isSome = (p.allocs n).isSome

theorem liveCount_reset_iff : liveCount { p with free := [] } = liveCount p ↔ p.free = [] := by
  rw [← length_eq_zero_iff]
  simp only [liveCount, length_nil]
  omega

theorem sameRoom_reset_iff (hp : p.mark ≤ p.cap) : SameRoom p { p with free := [] } ↔ p.free = [] := by
  constructor
  · intro h
    -- The pool can hand out one slot for each free one on top of the rest.
    have hall := h (p.free.length + (p.cap - p.mark).toNat)
    rw [Bool.eq_iff_iff, Pool.allocs_isSome_iff hp, Pool.allocs_isSome_iff (p := { p with free := [] }) hp] at hall
    rw [← length_eq_zero_iff]
    simp only [length_nil] at hall
    omega
  · intro h n
    rw [show { p with free := [] } = p by simp [← h]]

/-- `nodeCount`, `relCount` and `propCount` agree. -/
@[mk_iff] structure SameCounts (s s' : PropertyGraph) : Prop where
  node : liveCount s'.graph.nodePool = liveCount s.graph.nodePool
  rel : liveCount s'.graph.relPool = liveCount s.graph.relPool
  prop : liveCount s'.propPool = liveCount s.propPool

/-- As many nodes, relationships and properties can still be added. -/
@[mk_iff] structure SameRooms (s s' : PropertyGraph) : Prop where
  node : SameRoom s.graph.nodePool s'.graph.nodePool
  rel : SameRoom s.graph.relPool s'.graph.relPool
  prop : SameRoom s.propPool s'.propPool

/-- No slot is on a free list. -/
@[mk_iff] structure NothingFreed (s : PropertyGraph) : Prop where
  node : s.graph.nodePool.free = []
  rel : s.graph.relPool.free = []
  prop : s.propPool.free = []

/-- **A reload keeps the counts and the room of a graph with nothing freed,**
and of no other. -/
theorem reload_counts_iff (g : GengoDBGraph) (order : List (XsdType × BlobTable)) (now : Nat) (disk : Disk)
    (hg : g.storage.toPropertyGraph.Reachable) (hvalid : g.storage.propData.Valid)
    (hfits : g.storage.propData.Fits32) (hdir : g.dbDir ≠ "") (hname : g.fileName ≠ "")
    (horder : order.Perm g.storage.propData.blobs) : ∃ g', g.reopened.ensureLoaded (g.flush order now disk) = .ok g' ∧
      (SameCounts g.storage.toPropertyGraph g'.storage.toPropertyGraph ↔ NothingFreed g.storage.toPropertyGraph) ∧
      (SameRooms g.storage.toPropertyGraph g'.storage.toPropertyGraph ↔ NothingFreed g.storage.toPropertyGraph) := by
  have hm := hg.machine
  obtain ⟨g', hload, hpools, -⟩ := ensureLoaded_reopened ⟨hm, hvalid, hfits⟩ hdir hname horder now disk
  refine ⟨g', hload, ?_, ?_⟩
  · simp only [sameCounts_iff, nothingFreed_iff, hpools.node, hpools.rel, hpools.prop, liveCount_reset_iff]
  · simp only [sameRooms_iff, nothingFreed_iff, hpools.node, hpools.rel, hpools.prop,
      sameRoom_reset_iff hm.nodePool.mark_le, sameRoom_reset_iff hm.relPool.mark_le,
      sameRoom_reset_iff hm.propPool.mark_le]

/-- A graph without values, in the file `db/db.neo4j.g.dat`. -/
def named (g : PropertyGraph) : GengoDBGraph where
  storage := { PropertyStore.create g.graph.nodePool.cap g.graph.relPool.cap g.propPool.cap with toPropertyGraph := g }
  fileName := "g"
  dbDir := "db"
  loaded := true

theorem fits32_create (propCapacity : Int) : (PropertyData.create propCapacity).Fits32 := by
  constructor <;> simp [PropertyData.create]

/-- A node was added and removed again: a reload counts it, and its slot is
gone. -/
theorem reload_counts_freedNode : ∃ g : PropertyGraph, g.Reachable ∧ ∃ g',
    (named g).reopened.ensureLoaded ((named g).flush [] 0 fun _ => none) = .ok g' ∧
      liveCount g.graph.nodePool = 0 ∧ liveCount g'.storage.graph.nodePool = 1 ∧
      (g.graph.nodePool.allocs 1).isSome ∧ ¬ (g'.storage.graph.nodePool.allocs 1).isSome := by
  have h₀ := PropertyGraph.Reachable.create 1 0 0 (by decide) (by decide) (by decide)
  have h₁ := h₀.call (c := .addNode) (show Pool.HasRoom _ by decide) (show PropertyGraph.call 0 _ _ = some _ from rfl)
  have h₂ := h₁.call (c := .removeNode 0) rfl (show PropertyGraph.call 1 _ _ = some _ from rfl)
  obtain ⟨g', hload, hpools, -⟩ := ensureLoaded_reopened (g := named _)
    ⟨h₂.machine, valid_create _, fits32_create _⟩ (by decide) (by decide) (List.Perm.nil) 0 fun _ => none
  refine ⟨_, h₂, g', hload, rfl, ?_, rfl, ?_⟩
  · rw [hpools.node]
    rfl
  · rw [hpools.node]
    decide

/-- Nothing freed: the counts survive. -/
theorem reload_counts_liveNode : ∃ g : PropertyGraph, g.Reachable ∧ ∃ g',
    (named g).reopened.ensureLoaded ((named g).flush [] 0 fun _ => none) = .ok g' ∧
      liveCount g.graph.nodePool = 1 ∧ SameCounts g g'.storage.toPropertyGraph := by
  have h₀ := PropertyGraph.Reachable.create 1 0 0 (by decide) (by decide) (by decide)
  have h₁ := h₀.call (c := .addNode) (show Pool.HasRoom _ by decide) (show PropertyGraph.call 0 _ _ = some _ from rfl)
  obtain ⟨g', hload, hcounts, -⟩ := reload_counts_iff (named _) [] 0 (fun _ => none) h₁ (valid_create _)
    (fits32_create _) (by decide) (by decide) .nil
  exact ⟨_, h₁, g', hload, rfl, hcounts.2 ⟨rfl, rfl, rfl⟩⟩

end GengoDBGraph
end GengoDB
