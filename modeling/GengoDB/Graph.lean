/-
The graph store (`runtime/Graph.h`): node and relationship tables of fixed
capacity, ids recycled through free lists, and for every node one intrusive
doubly linked list of the relationships that touch it. A relationship record
sits on the lists of both its endpoints; it keeps one pair of links per side,
and which pair belongs to a node is decided by comparing the node with the
record's first endpoint — a self-loop is on its node's list once, through the
first-side links.

A table is a total function, zero-initialised like the buffers behind it;
`none` is a failed assertion or a loop that ran out of `fuel`. The `labels`,
`extra` and `firstInChainMarker` bytes no operation reads are left out.
-/
import GengoDB.Dll
import GengoDB.Loop
import GengoDB.Pool

namespace GengoDB

open Function (update update_self update_of_ne)

/-- `GRAPH_NONE`, the null id. -/
abbrev graphNone : Int := -1

structure NodeEntry (ν : Type) where
  firstRelId : Int
  inUse : Bool
  payload : ν

structure RelEntry (ρ : Type) where
  firstNodeId : Int
  secondNodeId : Int
  typeId : Int32
  firstPrevRelId : Int
  firstNextRelId : Int
  secondPrevRelId : Int
  secondNextRelId : Int
  inUse : Bool
  payload : ρ

/-- A zero-initialised record. -/
def NodeEntry.zero {ν : Type} [Zero ν] : NodeEntry ν :=
  { firstRelId := 0, inUse := false, payload := 0 }

def RelEntry.zero {ρ : Type} [Zero ρ] : RelEntry ρ :=
  { firstNodeId := 0, secondNodeId := 0, typeId := 0, firstPrevRelId := 0, firstNextRelId := 0,
    secondPrevRelId := 0, secondNextRelId := 0, inUse := false, payload := 0 }

/-! The links of a record on the list of `node`: the pair of the side `node`
is on, the first side when it is both endpoints. -/

def RelEntry.nextOn {ρ : Type} (e : RelEntry ρ) (node : Int) : Int :=
  if e.firstNodeId = node then e.firstNextRelId else e.secondNextRelId

def RelEntry.prevOn {ρ : Type} (e : RelEntry ρ) (node : Int) : Int :=
  if e.firstNodeId = node then e.firstPrevRelId else e.secondPrevRelId

def RelEntry.setNextOn {ρ : Type} (e : RelEntry ρ) (node v : Int) : RelEntry ρ :=
  if e.firstNodeId = node then { e with firstNextRelId := v } else { e with secondNextRelId := v }

def RelEntry.setPrevOn {ρ : Type} (e : RelEntry ρ) (node v : Int) : RelEntry ρ :=
  if e.firstNodeId = node then { e with firstPrevRelId := v } else { e with secondPrevRelId := v }

/-- `Graph<NodePayload, RelPayload>`; each pool is a mark, a capacity and a
free list. -/
structure Graph (ν ρ : Type) where
  nodes : Int → NodeEntry ν
  rels : Int → RelEntry ρ
  nodePool : Pool
  relPool : Pool

namespace Graph

variable {ν ρ : Type}

def create [Zero ν] [Zero ρ] (nodeCapacity relCapacity : Int) : Graph ν ρ where
  nodes _ := .zero
  rels _ := .zero
  nodePool := .empty nodeCapacity
  relPool := .empty relCapacity

/-! ## Record accesses -/

variable (g : Graph ν ρ)

def setNode (id : Int) (e : NodeEntry ν) : Graph ν ρ :=
  { g with nodes := update g.nodes id e }

def setRel (id : Int) (e : RelEntry ρ) : Graph ν ρ :=
  { g with rels := update g.rels id e }

/-- The `next` link of `rel` on the list of `node`. -/
def nextOf (node rel : Int) : Int := (g.rels rel).nextOn node

/-- The `prev` link of `rel` on the list of `node`. -/
def prevOf (node rel : Int) : Int := (g.rels rel).prevOn node

def setNext (node rel v : Int) : Graph ν ρ :=
  g.setRel rel ((g.rels rel).setNextOn node v)

def setPrev (node rel v : Int) : Graph ν ρ :=
  g.setRel rel ((g.rels rel).setPrevOn node v)

def setFirstRel (node v : Int) : Graph ν ρ :=
  g.setNode node { g.nodes node with firstRelId := v }

/-! ## Linking and unlinking -/

/-- The link fields `linkRelToNode` writes into the record it links. -/
def linkEntry (r : RelEntry ρ) (oldHead : Int) (nodeIsFirst : Bool) : RelEntry ρ :=
  if nodeIsFirst then { r with firstNextRelId := oldHead, firstPrevRelId := graphNone }
  else { r with secondNextRelId := oldHead, secondPrevRelId := graphNone }

def linkRelToNode (relId nodeId : Int) (nodeIsFirst : Bool) : Graph ν ρ :=
  let oldHead := (g.nodes nodeId).firstRelId
  let g := g.setRel relId (linkEntry (g.rels relId) oldHead nodeIsFirst)
  let g := if oldHead ≠ graphNone then g.setPrev nodeId oldHead relId else g
  g.setFirstRel nodeId relId

def unlinkRelFromNode (relId nodeId : Int) : Graph ν ρ :=
  let prevId := g.prevOf nodeId relId
  let nextId := g.nextOf nodeId relId
  let g := if prevId ≠ graphNone then g.setNext nodeId prevId nextId else g.setFirstRel nodeId nextId
  if nextId ≠ graphNone then g.setPrev nodeId nextId prevId else g

/-! ## Operations -/

def allocNode : Option (Int × Graph ν ρ) :=
  g.nodePool.alloc.map fun (id, p) => (id, { g with nodePool := p })

def allocRel : Option (Int × Graph ν ρ) :=
  g.relPool.alloc.map fun (id, p) => (id, { g with relPool := p })

def addNode (initPayload : ν) : Option (Int × Graph ν ρ) := do
  let (id, g) ← g.allocNode
  return (id, g.setNode id { inUse := true, firstRelId := graphNone, payload := initPayload })

/-- The record `addRelationship` writes before it links it. -/
def freshRel (src dst : Int) (typeId : UInt32) (initPayload : ρ) : RelEntry ρ where
  inUse := true
  firstNodeId := src
  secondNodeId := dst
  typeId := typeId.toInt32
  firstPrevRelId := graphNone
  firstNextRelId := graphNone
  secondPrevRelId := graphNone
  secondNextRelId := graphNone
  payload := initPayload

def addRelationship (src dst : Int) (typeId : UInt32) (initPayload : ρ) :
    Option (Int × Graph ν ρ) := do
  let (id, g) ← g.allocRel
  let g := g.setRel id (freshRel src dst typeId initPayload)
  let g := g.linkRelToNode id src true
  return (id, if src ≠ dst then g.linkRelToNode id dst false else g)

/-- The two unlinks of `removeRelationship`. -/
def unlinkRel (id : Int) : Graph ν ρ :=
  let r := g.rels id
  let g := g.unlinkRelFromNode id r.firstNodeId
  if r.firstNodeId ≠ r.secondNodeId then g.unlinkRelFromNode id r.secondNodeId else g

/-- `inUse = false` and the push on the free list. -/
def releaseRel (id : Int) : Graph ν ρ :=
  { g.setRel id { g.rels id with inUse := false } with relPool := g.relPool.release id }

def removeRelationship (id : Int) : Option (Graph ν ρ) :=
  if (g.rels id).inUse then some ((g.unlinkRel id).releaseRel id) else none

/-- The loop of `removeNode`: remove the relationships from `cur` on. The
successor is read before the record is unlinked. -/
def removeRelsFrom (node : Int) (fuel : Nat) (g : Graph ν ρ) (cur : Int) : Option (Graph ν ρ) :=
  (Loop.run (fun s : Graph ν ρ × Int => s.2 ≠ graphNone)
    (fun s => (s.1.removeRelationship s.2).map (·, s.1.nextOf node s.2)) fuel (g, cur)).map (·.1)

def releaseNode (id : Int) : Graph ν ρ :=
  { g.setNode id { g.nodes id with inUse := false, firstRelId := graphNone } with
    nodePool := g.nodePool.release id }

def removeNode (fuel : Nat) (g : Graph ν ρ) (id : Int) : Option (Graph ν ρ) :=
  if (g.nodes id).inUse then do
    let g ← removeRelsFrom id fuel g (g.nodes id).firstRelId
    return g.releaseNode id
  else none

/-- Follow the relationship list of `node` from `firstRelId` through the
`next` links of its side. -/
def relChain (fuel : Nat) (node : Int) : Option (List Int) :=
  Dll.walk graphNone (g.nextOf node) fuel (g.nodes node).firstRelId

/-! ## Calls -/

def setNodePayload (id : Int) (p : ν) : Graph ν ρ :=
  g.setNode id { g.nodes id with payload := p }

def setRelPayload (id : Int) (p : ρ) : Graph ν ρ :=
  g.setRel id { g.rels id with payload := p }

/-- The operations of the store, payload writes through `node()` and `rel()`
included. -/
inductive Call (ν ρ : Type) where
  | addNode (p : ν)
  | addRelationship (src dst : Int) (typeId : UInt32) (p : ρ)
  | removeRelationship (id : Int)
  | removeNode (id : Int)
  | setNodePayload (id : Int) (p : ν)
  | setRelPayload (id : Int) (p : ρ)

def call (fuel : Nat) (g : Graph ν ρ) : Call ν ρ → Option (Graph ν ρ)
  | .addNode p => (g.addNode p).map (·.2)
  | .addRelationship src dst typeId p => (g.addRelationship src dst typeId p).map (·.2)
  | .removeRelationship id => g.removeRelationship id
  | .removeNode id => g.removeNode fuel id
  | .setNodePayload id p => some (g.setNodePayload id p)
  | .setRelPayload id p => some (g.setRelPayload id p)

/-- The ids passed are in use and no capacity is exceeded. -/
def Admissible : Call ν ρ → Prop
  | .addNode _ => g.nodePool.HasRoom
  | .addRelationship src dst _ _ =>
    (g.nodes src).inUse = true ∧ (g.nodes dst).inUse = true ∧ g.relPool.HasRoom
  | .removeRelationship id => (g.rels id).inUse = true
  | .removeNode id => (g.nodes id).inUse = true
  | .setNodePayload _ _ | .setRelPayload _ _ => True

/-- The states admissible calls lead to from a store just created. -/
inductive Reachable [Zero ν] [Zero ρ] : Graph ν ρ → Prop
  | create (nodeCapacity relCapacity : Int32) : 0 ≤ nodeCapacity.toInt → 0 ≤ relCapacity.toInt →
    Reachable (create nodeCapacity.toInt relCapacity.toInt)
  | call {g g' : Graph ν ρ} {c : Call ν ρ} {fuel : Nat} :
    Reachable g → g.Admissible c → g.call fuel c = some g' → Reachable g'

end Graph
end GengoDB
