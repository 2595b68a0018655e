/-
The record fields of a property graph are 32-bit integers. The model's ids
are unbounded, so that they stay in range is a fact: an operation writes
`GRAPH_NONE`, an id read from another record, or a slot the pool handed out,
and a pool's slots are below a capacity that is itself an `int32_t`
(`PropertyGraph.Reachable.machine`). Records that were freed are included:
they keep their last contents, and files hold them.
-/
import GengoDB.PropertyGraphFacts

namespace GengoDB

open Option

open Function (update update_self update_of_ne)

/-- A value of `int32_t`. -/
def IsInt32 (x : Int) : Prop := -2 ^ 31 ≤ x ∧ x < 2 ^ 31

theorem IsInt32.none : IsInt32 graphNone := by
  constructor <;> decide

theorem IsInt32.zero : IsInt32 0 := by
  constructor <;> decide

theorem IsInt32.toInt_ofInt {x : Int} (h : IsInt32 x) : (Int32.ofInt x).toInt = x := Int32.toInt_ofInt_of_le h.1 h.2

theorem IsInt32.toInt (b : BitVec 32) : IsInt32 b.toInt := ⟨BitVec.le_toInt b, BitVec.toInt_lt⟩

/-- The capacity of a table. -/
def IsCapacity (c : Int) : Prop := 0 ≤ c ∧ c < 2 ^ 31

instance (c : Int) : Decidable (IsCapacity c) := inferInstanceAs (Decidable (_ ∧ _))

/-! ## Records -/

structure NodeEntry.Machine (e : NodeEntry Int) : Prop where
  firstRelId : IsInt32 e.firstRelId
  payload : IsInt32 e.payload

structure RelEntry.Machine (e : RelEntry Int) : Prop where
  firstNodeId : IsInt32 e.firstNodeId
  secondNodeId : IsInt32 e.secondNodeId
  firstPrevRelId : IsInt32 e.firstPrevRelId
  firstNextRelId : IsInt32 e.firstNextRelId
  secondPrevRelId : IsInt32 e.secondPrevRelId
  secondNextRelId : IsInt32 e.secondNextRelId
  payload : IsInt32 e.payload

structure PropRecord.Machine (e : PropRecord) : Prop where
  nextPropId : IsInt32 e.nextPropId
  prevPropId : IsInt32 e.prevPropId

namespace RelEntry.Machine

variable {e : RelEntry Int} {n v : Int}

theorem nextOn (h : e.Machine) (n : Int) : IsInt32 (e.nextOn n) := by
  unfold RelEntry.nextOn
  split
  · exact h.firstNextRelId
  · exact h.secondNextRelId

theorem prevOn (h : e.Machine) (n : Int) : IsInt32 (e.prevOn n) := by
  unfold RelEntry.prevOn
  split
  · exact h.firstPrevRelId
  · exact h.secondPrevRelId

theorem setNextOn (h : e.Machine) (hv : IsInt32 v) : (e.setNextOn n v).Machine := by
  unfold RelEntry.setNextOn
  split
  · exact { h with firstNextRelId := hv }
  · exact { h with secondNextRelId := hv }

theorem setPrevOn (h : e.Machine) (hv : IsInt32 v) : (e.setPrevOn n v).Machine := by
  unfold RelEntry.setPrevOn
  split
  · exact { h with firstPrevRelId := hv }
  · exact { h with secondPrevRelId := hv }

theorem linkEntry (h : e.Machine) (hv : IsInt32 v) (nodeIsFirst : Bool) :
    (Graph.linkEntry e v nodeIsFirst).Machine := by
  unfold Graph.linkEntry
  split
  · exact { h with firstNextRelId := hv, firstPrevRelId := .none }
  · exact { h with secondNextRelId := hv, secondPrevRelId := .none }

end RelEntry.Machine

/-! ## The graph store -/

variable {used : Int → Bool}

namespace Graph

/-- Every record field is an `int32_t`, and so are the capacities. -/
structure InRange (g : Graph Int Int) : Prop where
  nodes : ∀ i, (g.nodes i).Machine
  rels : ∀ i, (g.rels i).Machine
  nodeCap : g.nodePool.cap < 2 ^ 31
  relCap : g.relPool.cap < 2 ^ 31

variable {g g' : Graph Int Int} {id r n v : Int}

section
variable (h : g.InRange)
include h

theorem InRange.setNode {i : Int} {e : NodeEntry Int} (he : e.Machine) : (g.setNode i e).InRange :=
  { h with
    nodes := by
      intro j
      rcases eq_or_ne j i with rfl | hj
      · simpa [Graph.setNode] using he
      · simpa [Graph.setNode, hj] using h.nodes j }

theorem InRange.setRel {i : Int} {e : RelEntry Int} (he : e.Machine) : (g.setRel i e).InRange :=
  { h with
    rels := by
      intro j
      rcases eq_or_ne j i with rfl | hj
      · simpa [Graph.setRel] using he
      · simpa [Graph.setRel, hj] using h.rels j }

theorem InRange.setNext (hv : IsInt32 v) : (g.setNext n r v).InRange := h.setRel ((h.rels r).setNextOn hv)

theorem InRange.setPrev (hv : IsInt32 v) : (g.setPrev n r v).InRange := h.setRel ((h.rels r).setPrevOn hv)

theorem InRange.setFirstRel (hv : IsInt32 v) : (g.setFirstRel n v).InRange :=
  h.setNode { h.nodes n with firstRelId := hv }

theorem InRange.linkRelToNode (hr : IsInt32 r) (nodeIsFirst : Bool) : (g.linkRelToNode r n nodeIsFirst).InRange := by
  have hold := (h.nodes n).firstRelId
  have hlink := h.setRel (i := r) ((h.rels r).linkEntry hold nodeIsFirst)
  simp only [Graph.linkRelToNode]
  split
  · exact (hlink.setPrev hr).setFirstRel hr
  · exact hlink.setFirstRel hr

theorem InRange.unlinkRelFromNode : (g.unlinkRelFromNode r n).InRange := by
  have hprev : IsInt32 (g.prevOf n r) := (h.rels r).prevOn n
  have hnext : IsInt32 (g.nextOf n r) := (h.rels r).nextOn n
  simp only [Graph.unlinkRelFromNode]
  split <;> split
  · exact (h.setNext hnext).setPrev hprev
  · exact (h.setFirstRel hnext).setPrev hprev
  · exact h.setNext hnext
  · exact h.setFirstRel hnext

theorem InRange.unlinkRel : (g.unlinkRel id).InRange := by
  simp only [Graph.unlinkRel]
  split
  · exact h.unlinkRelFromNode.unlinkRelFromNode
  · exact h.unlinkRelFromNode

theorem InRange.releaseRel : (g.releaseRel id).InRange :=
  have hset := h.setRel (e := { g.rels id with inUse := false }) { h.rels id with }
  { hset with }

theorem InRange.removeRelationship (hrun : g.removeRelationship id = some g') : g'.InRange := by
  obtain ⟨-, rfl⟩ := removeRelationship_eq_some.1 hrun
  exact h.unlinkRel.releaseRel

theorem InRange.removeRelsFrom {node cur : Int} {fuel : Nat}
    (hrun : removeRelsFrom node fuel g cur = some g') : g'.InRange := by
  obtain ⟨s, hs, rfl⟩ := map_eq_some_iff.1 hrun
  refine Loop.run_inv (I := fun s => s.1.InRange) (fun s s' _ hI hb => ?_) h hs
  obtain ⟨g1, h1, rfl⟩ := map_eq_some_iff.1 hb
  exact hI.removeRelationship h1

theorem InRange.removeNode {fuel : Nat} (hrun : g.removeNode fuel id = some g') : g'.InRange := by
  unfold Graph.removeNode at hrun
  split at hrun
  · obtain ⟨g1, h1, hrun⟩ := bind_eq_some_iff.1 hrun
    cases hrun
    have hI := h.removeRelsFrom h1
    have hset := hI.setNode (i := id) (e := { g1.nodes id with inUse := false, firstRelId := graphNone })
      { hI.nodes id with firstRelId := .none }
    exact { hset with }
  · cases hrun

end

/-- Slots are below the capacity. -/
theorem isInt32_alloc {p q : Pool} (htr : p.Tracks used) (hcap : p.cap < 2 ^ 31)
    (h : p.alloc = some (id, q)) : IsInt32 id := by
  obtain ⟨-, hnonneg, hlt, -⟩ := htr.alloc h
  constructor <;> omega

theorem isInt32_used {p : Pool} (htr : p.Tracks used) (hcap : p.cap < 2 ^ 31) (h : used id) : IsInt32 id := by
  have hb := htr.bounds h
  have hle := htr.mark_le
  constructor <;> omega

theorem InRange.addNode (h : g.InRange) (hrun : g.addNode graphNone = some (id, g')) : g'.InRange := by
  obtain ⟨q, hq, rfl⟩ := addNode_eq_some.1 hrun
  have hset := h.setNode (i := id) (e := ⟨graphNone, true, graphNone⟩) ⟨.none, .none⟩
  exact { hset with nodeCap := (Pool.alloc_cap hq).trans_lt h.nodeCap }

theorem InRange.addRelationship {L : Int → List Int} {src dst : Int} {type : UInt32} (h : g.InRange)
    (hwf : g.WellFormed L) (hs : (g.nodes src).inUse) (hd : (g.nodes dst).inUse)
    (hrun : g.addRelationship src dst type graphNone = some (id, g')) : g'.InRange := by
  obtain ⟨q, hq, rfl⟩ := addRelationship_eq_some.1 hrun
  have hid := isInt32_alloc hwf.relPool h.relCap hq
  have hfresh : (freshRel src dst type graphNone).Machine :=
    ⟨isInt32_used hwf.nodePool h.nodeCap hs, isInt32_used hwf.nodePool h.nodeCap hd, .none, .none, .none, .none, .none⟩
  have hset : (g.withFresh id q (freshRel src dst type graphNone)).InRange :=
    { h.setRel hfresh with relCap := (Pool.alloc_cap hq).trans_lt h.relCap }
  simp only [linkEnds]
  split
  · exact (hset.linkRelToNode hid true).linkRelToNode hid false
  · exact hset.linkRelToNode hid true

end Graph

/-! ## The property graph -/

/-- The mark is inside a table of at most `2 ^ 31` slots. -/
structure Pool.Machine (p : Pool) : Prop where
  mark_nonneg : 0 ≤ p.mark
  mark_le : p.mark ≤ p.cap
  cap_lt : p.cap < 2 ^ 31

theorem Pool.Tracks.machine {p : Pool} (h : p.Tracks used) (hcap : p.cap < 2 ^ 31) : p.Machine :=
  ⟨h.mark_nonneg, h.mark_le, hcap⟩

namespace PropertyGraph

structure InRange (g : PropertyGraph) : Prop where
  graph : g.graph.InRange
  props : ∀ i, (g.props i).Machine
  propCap : g.propPool.cap < 2 ^ 31

/-- Every field holds a value of its type, and the marks are inside their
tables. -/
structure Machine (g : PropertyGraph) : Prop extends g.InRange where
  nodePool : g.graph.nodePool.Machine
  relPool : g.graph.relPool.Machine
  propPool : g.propPool.Machine

variable {g g' : PropertyGraph} {o : Owner} {id v p : Int} {fuel : Nat}

section
variable (h : g.InRange)
include h

theorem InRange.setProp {i : Int} {e : PropRecord} (he : e.Machine) : (g.setProp i e).InRange :=
  { h with
    props := by
      intro j
      rcases eq_or_ne j i with rfl | hj
      · simpa [PropertyGraph.setProp] using he
      · simpa [PropertyGraph.setProp, hj] using h.props j }

theorem InRange.setNextProp (hv : IsInt32 v) : (g.setNextProp id v).InRange :=
  h.setProp { h.props id with nextPropId := hv }

theorem InRange.setPrevProp (hv : IsInt32 v) : (g.setPrevProp id v).InRange :=
  h.setProp { h.props id with prevPropId := hv }

theorem InRange.chainHead (o : Owner) : IsInt32 (g.chainHead o) := by
  cases o with
  | node n => exact (h.graph.nodes n).payload
  | rel r => exact (h.graph.rels r).payload

theorem InRange.setChainHead (hv : IsInt32 v) : (g.setChainHead o v).InRange := by
  cases o with
  | node n => exact { h with graph := h.graph.setNode { h.graph.nodes n with payload := hv } }
  | rel r => exact { h with graph := h.graph.setRel { h.graph.rels r with payload := hv } }

theorem InRange.freeProp : (g.freeProp id).InRange :=
  have hset := h.setProp (e := { g.props id with inUse := false }) { h.props id with }
  { hset with }

theorem InRange.freeChain (hrun : freeChain fuel g p = some g') : g'.InRange := by
  obtain ⟨s, hs, rfl⟩ := map_eq_some_iff.1 hrun
  refine Loop.run_inv (I := fun s => s.1.InRange) (fun s s' _ hI hb => ?_) h hs
  cases hb
  exact hI.freeProp

theorem InRange.freeRelProps {bound : Nat} {node cur : Int}
    (hrun : freeRelProps bound node fuel g cur = some g') : g'.InRange := by
  obtain ⟨s, hs, rfl⟩ := map_eq_some_iff.1 hrun
  refine Loop.run_inv (I := fun s => s.1.InRange) (fun s s' _ hI hb => ?_) h hs
  obtain ⟨g1, h1, rfl⟩ := map_eq_some_iff.1 hb
  exact (hI.freeChain h1).setChainHead (o := .rel s.2) .none

theorem InRange.pushProp {q : Pool} {key type value : UInt32} (hid : IsInt32 id)
    (hcap : q.cap < 2 ^ 31) : (g.pushProp o id q key type value).InRange := by
  have hq : InRange { g with propPool := q } := { h with propCap := hcap }
  have hset := hq.setProp (i := id) (e := ⟨g.chainHead o, graphNone, key, type, value, true⟩)
    ⟨h.chainHead o, .none⟩
  simp only [PropertyGraph.pushProp]
  split
  · exact (hset.setPrevProp hid).setChainHead hid
  · exact hset.setChainHead hid

theorem InRange.unlinkProp : (g.unlinkProp id o).InRange := by
  have hprev := (h.props id).prevPropId
  have hnext := (h.props id).nextPropId
  simp only [PropertyGraph.unlinkProp]
  split <;> split
  · exact (h.setNextProp hnext).setPrevProp hprev
  · exact (h.setChainHead hnext).setPrevProp hprev
  · exact h.setNextProp hnext
  · exact h.setChainHead hnext

/-- **A call keeps every field in range.** -/
theorem InRange.call {L : Int → List Int} {P : Owner → List Int} {c : Call}
    (hwf : g.WellFormed L P) (ha : g.Admissible c) (hrun : g.call fuel c = some g') : g'.InRange := by
  cases c with
  | addNode =>
    obtain ⟨⟨id, g1⟩, h1, rfl⟩ := map_eq_some_iff.1 hrun
    obtain ⟨graph, hg, rfl⟩ := addNode_eq_some.1 h1
    exact { h with graph := h.graph.addNode hg }
  | addRelationship src dst type =>
    obtain ⟨⟨id, g1⟩, h1, rfl⟩ := map_eq_some_iff.1 hrun
    obtain ⟨graph, hg, rfl⟩ := addRelationship_eq_some.1 h1
    exact { h with graph := h.graph.addRelationship hwf.graph ha.1 ha.2.1 hg }
  | removeRelationship id =>
    simp only [PropertyGraph.call, removeRelationship, bind_eq_bind, bind_eq_some_iff] at hrun
    obtain ⟨g1, h1, graph, h2, h3⟩ := hrun
    cases h3
    have hI := h.freeChain h1
    exact { hI with graph := hI.graph.removeRelationship h2 }
  | removeNode id =>
    simp only [PropertyGraph.call, removeNode, bind_eq_bind, bind_eq_some_iff] at hrun
    obtain ⟨g1, h1, g2, h2, graph, h3, h4⟩ := hrun
    cases h4
    have hI := ((h.freeRelProps h1).freeChain h2).setChainHead (o := .node id) .none
    exact { hI with graph := hI.graph.removeNode h3 }
  | addProperty o key type value =>
    obtain ⟨⟨id, g1⟩, h1, rfl⟩ := map_eq_some_iff.1 hrun
    obtain ⟨q, hq, rfl⟩ := addPropertyToChain_eq_some.1 h1
    exact h.pushProp (Graph.isInt32_alloc hwf.props.pool h.propCap hq) ((Pool.alloc_cap hq).trans_lt h.propCap)
  | removeProperty id o =>
    simp only [PropertyGraph.call, removeProperty] at hrun
    split at hrun
    · cases hrun
      exact h.unlinkProp.freeProp
    · cases hrun
  | setPropertyValue id value =>
    cases hrun
    exact h.setProp { h.props id with }

end

theorem InRange.create {nodeCapacity relCapacity propCapacity : Int} (hn : nodeCapacity < 2 ^ 31)
    (hr : relCapacity < 2 ^ 31) (hp : propCapacity < 2 ^ 31) :
    (create nodeCapacity relCapacity propCapacity).InRange where
  graph := ⟨fun _ => ⟨.zero, .zero⟩, fun _ => ⟨.zero, .zero, .zero, .zero, .zero, .zero, .zero⟩, hn, hr⟩
  props _ := ⟨.zero, .zero⟩
  propCap := hp

/-- **Every field of a reachable graph holds a value of its type.** -/
theorem Reachable.machine (h : Reachable g) : g.Machine := by
  have hrange : g.InRange := by
    induction h with
    | create nc rc pc => exact .create nc.toInt_lt rc.toInt_lt pc.toInt_lt
    | call h ha hrun ih =>
      obtain ⟨L, P, hwf⟩ := h.wellFormed
      exact ih.call hwf ha hrun
  obtain ⟨L, P, hwf⟩ := h.wellFormed
  exact { hrange with
    nodePool := hwf.graph.nodePool.machine hrange.graph.nodeCap
    relPool := hwf.graph.relPool.machine hrange.graph.relCap
    propPool := hwf.props.pool.machine hrange.propCap }

end PropertyGraph
end GengoDB
