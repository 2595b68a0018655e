/-
The file of a property graph (`runtime/GengoDBGraph.h`, `.cpp`,
`runtime/GraphData.h`, `.cpp`). `serialize` copies the records below the
high-water marks into packed records, which `flush` writes after a header
with their counts and before the value pools; `ensureLoaded` reads them into
a graph and `deserialize` gives each the next slot.

Ids are 32 bits in a record and in the file, so a record read back is the one
that was written as long as its fields are (`Machine`).
-/
import GengoDB.PropertyData
import GengoDB.PropertyGraph

namespace GengoDB

open Codec
open Function (update)

/-! ## The graph in memory -/

/-- The bytes of a node entry no graph operation reads. -/
structure NodeBytes where
  labels : Fin 5 → Byte
  extra : Byte

/-- A `PropertyGraph` object: the graph, the bytes its model leaves out, and
the value pools. -/
structure PropertyStore extends PropertyGraph where
  nodeBytes : Int → NodeBytes
  firstInChainMarker : Int → Byte
  propData : PropertyData

def PropertyStore.create (nodeCapacity relCapacity propCapacity : Int) : PropertyStore where
  toPropertyGraph := .create nodeCapacity relCapacity propCapacity
  nodeBytes _ := { labels := fun _ => 0, extra := 0 }
  firstInChainMarker _ := 0
  propData := .create propCapacity

/-! ## Packed records -/

namespace Neo4J

structure NodeEntry where
  inUse : Bool
  firstRelId : Int32
  firstPropId : UInt32
  labels : Fin 5 → Byte
  extra : Byte

structure RelEntry where
  inUse : Bool
  firstNodeId : Int32
  secondNodeId : Int32
  typeId : Int32
  firstPrevRelId : Int32
  firstNextRelId : Int32
  secondPrevRelId : Int32
  secondNextRelId : Int32
  firstPropId : UInt32
  firstInChainMarker : Byte

structure PropRecord where
  inUse : Bool
  nextPropId : Int32
  prevPropId : Int32
  key : UInt32
  type : UInt32
  value : UInt32

/-! Fields in a row, as the packed structs lay them out. -/

def putBool (b : Bool) : List Byte := putLE 1 b.toNat
def putI32 (i : Int32) : List Byte := putLE 4 i.toUInt32.toNat
def putU32 (u : UInt32) : List Byte := putLE 4 u.toNat
def putByte (b : Byte) : List Byte := putLE 1 b.val

def bool : Reader Bool := (· != 0) <$> le 1
def i32 : Reader Int32 := (fun n => (UInt32.ofNat n).toInt32) <$> le 4
def u32 : Reader UInt32 := UInt32.ofNat <$> le 4
def byte : Reader Byte := Fin.ofNat 256 <$> le 1
def labels : Reader (Fin 5 → Byte) := (fun l i => l.getD i 0) <$> raw 5

def NodeEntry.put (e : NodeEntry) : List Byte :=
  putBool e.inUse ++ (putI32 e.firstRelId ++ (putU32 e.firstPropId ++ (List.ofFn e.labels ++ putByte e.extra)))

def nodeEntry : Reader NodeEntry := do
  let inUse ← bool
  let firstRelId ← i32
  let firstPropId ← u32
  let labels ← labels
  let extra ← byte
  return { inUse, firstRelId, firstPropId, labels, extra }

def RelEntry.put (e : RelEntry) : List Byte :=
  putBool e.inUse ++ (putI32 e.firstNodeId ++ (putI32 e.secondNodeId ++ (putI32 e.typeId ++
    (putI32 e.firstPrevRelId ++ (putI32 e.firstNextRelId ++ (putI32 e.secondPrevRelId ++
      (putI32 e.secondNextRelId ++ (putU32 e.firstPropId ++ putByte e.firstInChainMarker))))))))

def relEntry : Reader RelEntry := do
  let inUse ← bool
  let firstNodeId ← i32
  let secondNodeId ← i32
  let typeId ← i32
  let firstPrevRelId ← i32
  let firstNextRelId ← i32
  let secondPrevRelId ← i32
  let secondNextRelId ← i32
  let firstPropId ← u32
  let firstInChainMarker ← byte
  return { inUse, firstNodeId, secondNodeId, typeId, firstPrevRelId, firstNextRelId, secondPrevRelId,
           secondNextRelId, firstPropId, firstInChainMarker }

def PropRecord.put (e : PropRecord) : List Byte :=
  putBool e.inUse ++ (putI32 e.nextPropId ++ (putI32 e.prevPropId ++ (putU32 e.key ++
    (putU32 e.type ++ putU32 e.value))))

def propRecord : Reader PropRecord := do
  let inUse ← bool
  let nextPropId ← i32
  let prevPropId ← i32
  let key ← u32
  let type ← u32
  let value ← u32
  return { inUse, nextPropId, prevPropId, key, type, value }

end Neo4J

/-- `Neo4JGraph`: the records below the marks. -/
structure Neo4JGraph where
  nodes : List Neo4J.NodeEntry
  rels : List Neo4J.RelEntry
  props : List Neo4J.PropRecord

/-! ## Packing -/

variable (s : PropertyStore)

namespace GraphData

def packNode (e : NodeEntry Int) (b : NodeBytes) : Neo4J.NodeEntry where
  inUse := e.inUse
  firstRelId := .ofInt e.firstRelId
  firstPropId := (Int32.ofInt e.payload).toUInt32
  labels := b.labels
  extra := b.extra

def packRel (e : RelEntry Int) (marker : Byte) : Neo4J.RelEntry where
  inUse := e.inUse
  firstNodeId := .ofInt e.firstNodeId
  secondNodeId := .ofInt e.secondNodeId
  typeId := e.typeId
  firstPrevRelId := .ofInt e.firstPrevRelId
  firstNextRelId := .ofInt e.firstNextRelId
  secondPrevRelId := .ofInt e.secondPrevRelId
  secondNextRelId := .ofInt e.secondNextRelId
  firstPropId := (Int32.ofInt e.payload).toUInt32
  firstInChainMarker := marker

def packProp (e : PropRecord) : Neo4J.PropRecord where
  inUse := e.inUse
  nextPropId := .ofInt e.nextPropId
  prevPropId := .ofInt e.prevPropId
  key := e.key
  type := e.type
  value := e.value

/-- A loop over the slots of a table below its mark. -/
def below {α : Type} (p : Pool) (row : Int → α) : List α := (List.range p.mark.toNat).map fun i : Nat => row i

/-- `GraphData::serialize`. -/
def serialize : Neo4JGraph where
  nodes := below s.graph.nodePool fun i => packNode (s.graph.nodes i) (s.nodeBytes i)
  rels := below s.graph.relPool fun i => packRel (s.graph.rels i) (s.firstInChainMarker i)
  props := below s.propPool fun i => packProp (s.props i)

def unpackNode (e : Neo4J.NodeEntry) : NodeEntry Int × NodeBytes :=
  ({ firstRelId := e.firstRelId.toInt, inUse := e.inUse, payload := e.firstPropId.toInt32.toInt },
   { labels := e.labels, extra := e.extra })

def unpackRel (e : Neo4J.RelEntry) : RelEntry Int × Byte :=
  ({ firstNodeId := e.firstNodeId.toInt, secondNodeId := e.secondNodeId.toInt, typeId := e.typeId,
     firstPrevRelId := e.firstPrevRelId.toInt, firstNextRelId := e.firstNextRelId.toInt,
     secondPrevRelId := e.secondPrevRelId.toInt, secondNextRelId := e.secondNextRelId.toInt,
     inUse := e.inUse, payload := e.firstPropId.toInt32.toInt }, e.firstInChainMarker)

def unpackProp (e : Neo4J.PropRecord) : PropRecord :=
  { nextPropId := e.nextPropId.toInt, prevPropId := e.prevPropId.toInt, key := e.key, type := e.type,
    value := e.value, inUse := e.inUse }

/-- `clear` of one table. -/
def clear (p : Pool) : Pool := { p with mark := 0, free := [] }

/-- `newNode`, `newRel` and `newProp`: the slot at the mark. -/
def next (p : Pool) : Option (Int × Pool) :=
  if p.mark < p.cap then some (p.mark, { p with mark := p.mark + 1 }) else none

/-- A loop of `deserialize`: each record goes into the next slot. -/
def fill {α : Type} (p : Pool) (row : Int → α) : List α → Option (Pool × (Int → α))
  | [] => some (p, row)
  | e :: es => do
    let (id, p) ← next p
    fill p (update row id e) es

/-- The graph with its three tables replaced. -/
def withTables (nodes : Pool × (Int → NodeEntry Int × NodeBytes))
    (rels : Pool × (Int → RelEntry Int × Byte)) (props : Pool × (Int → PropRecord)) : PropertyStore where
  graph := { nodes := fun i => (nodes.2 i).1, rels := fun i => (rels.2 i).1, nodePool := nodes.1, relPool := rels.1 }
  props := props.2
  propPool := props.1
  nodeBytes i := (nodes.2 i).2
  firstInChainMarker i := (rels.2 i).2
  propData := s.propData

/-- `GraphData::deserialize`. -/
def deserialize (g : Neo4JGraph) : Option PropertyStore := do
  let nodes ← fill (clear s.graph.nodePool) (fun i => (s.graph.nodes i, s.nodeBytes i)) (g.nodes.map unpackNode)
  let rels ← fill (clear s.graph.relPool) (fun i => (s.graph.rels i, s.firstInChainMarker i)) (g.rels.map unpackRel)
  let props ← fill (clear s.propPool) s.props (g.props.map unpackProp)
  return withTables s nodes rels props

end GraphData

/-! ## The file -/

/-- A file: its bytes and when it was written. -/
structure File where
  content : List Byte
  time : Nat

abbrev Disk := String → Option File

structure GengoDBGraph where
  storage : PropertyStore
  fileName : String
  dbDir : String
  loaded : Bool

namespace GengoDBGraph

def create (fileName : String) (nodeCapacity relCapacity propCapacity : Int) : GengoDBGraph where
  storage := .create nodeCapacity relCapacity propCapacity
  fileName := fileName
  dbDir := ""
  loaded := false

def graphPath (g : GengoDBGraph) : String := g.dbDir ++ "/db.neo4j." ++ g.fileName ++ ".dat"

def graphFileMagic : Nat := 0x47524150

def putHeader (g : Neo4JGraph) : List Byte :=
  putLE 4 graphFileMagic ++ (putLE 4 g.nodes.length ++ (putLE 4 g.rels.length ++ putLE 4 g.props.length))

/-- What `flush` writes. -/
def image (order : List (XsdType × BlobTable)) : List Byte :=
  let neo := GraphData.serialize s
  putHeader neo ++ (neo.nodes.flatMap (·.put) ++ (neo.rels.flatMap (·.put) ++ (neo.props.flatMap (·.put) ++
    s.propData.flush order)))

/-- `flush` at time `now`; a graph without a directory or a name is not
written. -/
def flush (g : GengoDBGraph) (order : List (XsdType × BlobTable)) (now : Nat) (disk : Disk) : Disk :=
  if g.dbDir = "" ∨ g.fileName = "" then disk
  else update disk g.graphPath (some { content := image g.storage order, time := now })

inductive LoadError where
  | badMagic (path : String)
  /-- The file ends early or has more records than the graph has slots. -/
  | badFile
  deriving DecidableEq

def header : Reader (Nat × Nat × Nat × Nat) := do
  let magic ← le 4
  let nNodes ← le 4
  let nRels ← le 4
  let nProps ← le 4
  return (magic, nNodes, nRels, nProps)

/-- The rest of the file, into the graph. -/
def contents (nNodes nRels nProps : Nat) : Reader PropertyStore := do
  let nodes ← repeated Neo4J.nodeEntry nNodes
  let rels ← repeated Neo4J.relEntry nRels
  let props ← repeated Neo4J.propRecord nProps
  let s ← check (GraphData.deserialize s { nodes, rels, props })
  let propData ← s.propData.load
  return { s with propData }

def readFile (path : String) (bytes : List Byte) : Except LoadError PropertyStore :=
  match header.run bytes with
  | none => .error .badFile
  | some ((magic, nNodes, nRels, nProps), rest) =>
    if magic ≠ graphFileMagic then .error (.badMagic path)
    else
      match (contents s nNodes nRels nProps).run rest with
      | none => .error .badFile
      | some (s, _) => .ok s

def ensureLoaded (g : GengoDBGraph) (disk : Disk) : Except LoadError GengoDBGraph :=
  if g.loaded then .ok g
  else
    let g := { g with loaded := true }
    if 0 < g.storage.graph.nodePool.mark ∨ g.dbDir = "" ∨ g.fileName = "" then .ok g
    else
      match disk g.graphPath with
      | none => .ok g
      | some f => (readFile g.storage g.graphPath f.content).map fun storage => { g with storage }

/-- `hasFreshCache`; `sourcePath` is looked at only when the cache exists. -/
def hasFreshCache (g : GengoDBGraph) (disk : Disk) (sourcePath : String) : Bool :=
  if g.dbDir = "" ∨ g.fileName = "" then false
  else
    match disk g.graphPath with
    | none => false
    | some cache =>
      if sourcePath = "" then true
      else
        match disk sourcePath with
        | none => true
        | some source => source.time ≤ cache.time

end GengoDBGraph
end GengoDB
