/-
The property graph (`runtime/BuiltinGraphs.h`, `.cpp`): a graph store whose
node and relationship payloads are heads of property lists, and a third table
with the property records. A property record is on one list only, so its
links have no sides.

`Call` and `call` are the public operations with the assertions they make;
`Reachable` are the states a sequence of admissible calls leads to — ids in
use, capacities not exceeded. The range assertions of the record accessors
are implied by the in-use ones and are left out, as are the value pools
(`PropertyData`) and the name mappings (`Metadata`), which no operation here
reads.
-/
import GengoDB.GraphFacts

namespace GengoDB

open Function (update update_self update_of_ne)

structure PropRecord where
  nextPropId : Int
  prevPropId : Int
  key : UInt32
  type : UInt32
  value : UInt32
  inUse : Bool

def PropRecord.zero : PropRecord :=
  { nextPropId := 0, prevPropId := 0, key := 0, type := 0, value := 0, inUse := false }

structure PropertyGraph where
  graph : Graph Int Int
  props : Int → PropRecord
  propPool : Pool

/-- What a property list hangs on: its head is the owner's payload. -/
inductive Owner where
  | node (n : Int)
  | rel (r : Int)
  deriving DecidableEq

namespace PropertyGraph

def create (nodeCapacity relCapacity propCapacity : Int) : PropertyGraph where
  graph := .create nodeCapacity relCapacity
  props _ := .zero
  propPool := .empty propCapacity

/-! ## Record accesses -/

variable (g : PropertyGraph)

def setProp (id : Int) (p : PropRecord) : PropertyGraph :=
  { g with props := update g.props id p }

def setNextProp (id v : Int) : PropertyGraph :=
  g.setProp id { g.props id with nextPropId := v }

def setPrevProp (id v : Int) : PropertyGraph :=
  g.setProp id { g.props id with prevPropId := v }

/-- The `chainHead` reference of an owner. -/
def chainHead : Owner → Int
  | .node n => (g.graph.nodes n).payload
  | .rel r => (g.graph.rels r).payload

def setChainHead : Owner → Int → PropertyGraph
  | .node n, v => { g with graph := g.graph.setNodePayload n v }
  | .rel r, v => { g with graph := g.graph.setRelPayload r v }

def ownerInUse : Owner → Bool
  | .node n => (g.graph.nodes n).inUse
  | .rel r => (g.graph.rels r).inUse

/-! ## Property lists -/

/-- `inUse = false` and the push on the free list. -/
def freeProp (id : Int) : PropertyGraph :=
  { g.setProp id { g.props id with inUse := false } with propPool := g.propPool.release id }

/-- The loop that frees the property list from `p` on. -/
def freeChain (fuel : Nat) (g : PropertyGraph) (p : Int) : Option PropertyGraph :=
  (Loop.run (fun s : PropertyGraph × Int => s.2 ≠ graphNone)
    (fun s => some (s.1.freeProp s.2, (s.1.props s.2).nextPropId)) fuel (g, p)).map (·.1)

def allocProp : Option (Int × PropertyGraph) :=
  g.propPool.alloc.map fun (id, p) => (id, { g with propPool := p })

/-- `addPropertyToChain`, with the head it updates named by its owner. -/
def addPropertyToChain (o : Owner) (key type value : UInt32) :
    Option (Int × PropertyGraph) := do
  let (id, g) ← g.allocProp
  let head := g.chainHead o
  let g := g.setProp id { inUse := true, key, type, value, prevPropId := graphNone, nextPropId := head }
  let g := if head ≠ graphNone then g.setPrevProp head id else g
  return (id, g.setChainHead o id)

/-- The pointer writes of `removeProperty`. -/
def unlinkProp (id : Int) (o : Owner) : PropertyGraph :=
  let prev := (g.props id).prevPropId
  let next := (g.props id).nextPropId
  let g := if prev ≠ graphNone then g.setNextProp prev next else g.setChainHead o next
  if next ≠ graphNone then g.setPrevProp next prev else g

def removeProperty (id : Int) (o : Owner) : Option PropertyGraph :=
  if (g.props id).inUse then some ((g.unlinkProp id o).freeProp id) else none

def setPropertyValue (id : Int) (value : UInt32) : PropertyGraph :=
  g.setProp id { g.props id with value }

/-! ## Nodes and relationships -/

def addNode : Option (Int × PropertyGraph) := do
  let (id, graph) ← g.graph.addNode graphNone
  return (id, { g with graph := graph.setNode id { graph.nodes id with inUse := true } })

def addRelationship (src dst : Int) (typeId : UInt32) : Option (Int × PropertyGraph) := do
  let (id, graph) ← g.graph.addRelationship src dst typeId graphNone
  return (id, { g with graph })

def removeRelationship (fuel : Nat) (g : PropertyGraph) (id : Int) : Option PropertyGraph := do
  let g ← freeChain fuel g (g.graph.rels id).payload
  let graph ← g.graph.removeRelationship id
  return { g with graph }

/-- The loop of `removeNode`: free the properties of the relationships from
`cur` on. -/
def freeRelProps (bound : Nat) (node : Int) (fuel : Nat) (g : PropertyGraph) (cur : Int) : Option PropertyGraph :=
  (Loop.run (fun s : PropertyGraph × Int => s.2 ≠ graphNone)
    (fun s => (freeChain bound s.1 (s.1.graph.rels s.2).payload).map fun g =>
      (g.setChainHead (.rel s.2) graphNone, s.1.graph.nextOf node s.2)) fuel (g, cur)).map (·.1)

def removeNode (fuel : Nat) (g : PropertyGraph) (id : Int) : Option PropertyGraph := do
  let g ← freeRelProps fuel id fuel g (g.graph.nodes id).firstRelId
  let g ← freeChain fuel g (g.graph.nodes id).payload
  let g := g.setChainHead (.node id) graphNone
  let graph ← g.graph.removeNode fuel id
  return { g with graph }

/-! ## Calls -/

inductive Call where
  | addNode
  | addRelationship (src dst : Int) (typeId : UInt32)
  | removeRelationship (id : Int)
  | removeNode (id : Int)
  | addProperty (o : Owner) (key type value : UInt32)
  | removeProperty (id : Int) (o : Owner)
  | setPropertyValue (id : Int) (value : UInt32)
  deriving DecidableEq

def call (fuel : Nat) (g : PropertyGraph) : Call → Option PropertyGraph
  | .addNode => g.addNode.map (·.2)
  | .addRelationship src dst typeId => (g.addRelationship src dst typeId).map (·.2)
  | .removeRelationship id => g.removeRelationship fuel id
  | .removeNode id => g.removeNode fuel id
  | .addProperty o key type value => (g.addPropertyToChain o key type value).map (·.2)
  | .removeProperty id o => g.removeProperty id o
  | .setPropertyValue id value => some (g.setPropertyValue id value)

/-- Follow the property list of an owner from its head. -/
def propChain (fuel : Nat) (o : Owner) : Option (List Int) :=
  Dll.walk graphNone (fun p => (g.props p).nextPropId) fuel (g.chainHead o)

/-- The ids passed are in use and no capacity is exceeded; a property is
removed through the head of the list it is on. -/
def Admissible : Call → Prop
  | .addNode => g.graph.nodePool.HasRoom
  | .addRelationship src dst _ =>
    (g.graph.nodes src).inUse = true ∧ (g.graph.nodes dst).inUse = true ∧ g.graph.relPool.HasRoom
  | .removeRelationship id => (g.graph.rels id).inUse = true
  | .removeNode id => (g.graph.nodes id).inUse = true
  | .addProperty o _ _ _ => g.ownerInUse o = true ∧ g.propPool.HasRoom
  | .removeProperty id o => g.ownerInUse o = true ∧ ∃ fuel l, g.propChain fuel o = some l ∧ id ∈ l
  | .setPropertyValue id _ => (g.props id).inUse = true

/-- The states admissible calls lead to from a graph just created. -/
inductive Reachable : PropertyGraph → Prop
  | create (nodeCapacity relCapacity propCapacity : Int32) :
    0 ≤ nodeCapacity.toInt → 0 ≤ relCapacity.toInt → 0 ≤ propCapacity.toInt →
    Reachable (create nodeCapacity.toInt relCapacity.toInt propCapacity.toInt)
  | call {g g' : PropertyGraph} {c : Call} {fuel : Nat} :
    Reachable g → g.Admissible c → g.call fuel c = some g' → Reachable g'

end PropertyGraph
end GengoDB
