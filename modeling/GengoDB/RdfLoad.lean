/-
Loading an RDF graph (`semantics/RdfGraph.cpp`, `semantics/RdfFileFormat.h`,
`catalog/GraphCatalogEntry.cpp`). The catalog keeps the dictionary and the
capacities of a graph; `ensureLoaded` either takes the storage from the cache
file and rebuilds the cache of the literals, or parses the source file into an
empty graph.

The parsers are a library: what they make of a file's bytes is a parameter. A
file that cannot be opened is an error of theirs. `order` is the order the
arguments of a call of `addTriple` are evaluated in.
-/
import GengoDB.RdfGraph

namespace GengoDB

open Codec

/-! ## File formats -/

inductive RDFFileFormat where
  | default | binary | turtle | ntriples | nquads | rdfxml | fuzzyTurtle
  deriving DecidableEq

namespace RDFFileFormat

def getRDFParseFlags : RDFFileFormat → ParsingFlag
  | .turtle | .fuzzyTurtle => .turtle
  | _ => .other

/-- `getRDFFileExtension` of parse flags. -/
def flagExtension : ParsingFlag → String
  | .turtle => ".ttl"
  | .other => ".rdf"

/-- `getRDFFileExtension` of a format. -/
def getRDFFileExtension (format : RDFFileFormat) : String :=
  if format = .fuzzyTurtle then ".fttl" else flagExtension format.getRDFParseFlags

end RDFFileFormat

/-! ## Parsers -/

structure ParsingError where
  message : String
  line : Nat

structure Quad where
  subject : Term
  predicate : Term
  object : Term

/-- What `loadFuzzyTTL` makes of a file: the degrees, and what the parser
yields for the rest. -/
structure FuzzyTurtleFile where
  degrees : List (BitVec 32)
  triples : List (Except ParsingError Quad)

structure Parsers where
  rdf : ParsingFlag → List Byte → List (Except ParsingError Quad)
  fuzzyTTL : ParsingFlag → List Byte → Except String FuzzyTurtleFile

/-- Why loading fails; `assertion` is also an access outside a table. -/
inductive RdfLoadError where
  | storage (e : GengoDBGraph.LoadError)
  | assertion
  | cannotOpen (path : String)
  | runtimeError (message : String)
  deriving DecidableEq

namespace RdfGraph

/-! ## The catalog -/

/-- What `serialize` writes: the storage is its file name and capacities. -/
structure CatalogData where
  iri : Bytes
  storageName : String
  nodeCapacity : Int
  relCapacity : Int
  propCapacity : Int
  fileName : String
  nodes : NodeIdDict.NodeIdStore
  sourceFileName : String

variable (g : RdfGraph)

def serialize : CatalogData where
  iri := g.iri
  storageName := g.storage.fileName
  nodeCapacity := g.store.graph.nodePool.cap
  relCapacity := g.store.graph.relPool.cap
  propCapacity := g.store.propPool.cap
  fileName := g.fileName
  nodes := g.nodes.serialize
  sourceFileName := g.sourceFileName

def deserialize (c : CatalogData) : Option RdfGraph := do
  let nodes ← NodeIdDict.deserialize c.nodes
  return { create c.fileName c.iri c.sourceFileName c.nodeCapacity c.relCapacity c.propCapacity with
    storage := .create c.storageName c.nodeCapacity c.relCapacity c.propCapacity
    nodes }

def setDBDir (dbDir : String) : RdfGraph :=
  { g with dbDir, storage := { g.storage with dbDir } }

/-! ## Triples of a file -/

def Quad.triple (q : Quad) (truth : BitVec 32) : Triple :=
  { subject := q.subject, predicate := q.predicate, object := q.object, truth }

/-- A loop over `addTriple`. -/
def addAll (order : Triple → List Slot) (ts : List Triple) : Except RdfLoadError RdfGraph :=
  match g.addTriples (ts.map fun t => (order t, t)) with
  | some (_, g) => .ok g
  | none => .error .assertion

/-- The triples before the first that cannot be parsed, where the loop of
`loadTriples` breaks. -/
def parsedTriples : List (Except ParsingError Quad) → List Triple
  | .ok q :: rest => Quad.triple q one32 :: parsedTriples rest
  | _ => []

/-- The loop of `loadFuzzyTriples`, over what the parser yields and the
degrees that are left. -/
def zipDegrees (path : String) (expected : Nat) :
    List (Except ParsingError Quad) → List (BitVec 32) → Except RdfLoadError (List Triple)
  | [], [] => .ok []
  | .ok q :: rest, degree :: degrees => (zipDegrees path expected rest degrees).map (Quad.triple q degree :: ·)
  | .error e :: _, _ => .error (.runtimeError (path ++ ": " ++ e.message ++ " (line " ++ toString e.line ++ ")"))
  | _, _ => .error (.runtimeError (path ++ ": parsed triple count does not match the truth degree annotations (expected "
      ++ toString expected ++ ")"))

/-- The triples of a fuzzy turtle file. -/
def fuzzyTriples (p : Parsers) (disk : Disk) (flags : ParsingFlag) (path : String) : Except RdfLoadError (List Triple) :=
  match disk path with
  | none => .error (.runtimeError ("cannot open fuzzy turtle file '" ++ path ++ "'"))
  | some f =>
    match p.fuzzyTTL flags f.content with
    | .error e => .error (.runtimeError (path ++ ": " ++ e))
    | .ok fttl => zipDegrees path fttl.degrees.length fttl.triples fttl.degrees

/-- The triples `loadTriples` adds. -/
def fileTriples (p : Parsers) (disk : Disk) : Except RdfLoadError (List Triple) :=
  if g.fuzzy then
    fuzzyTriples p disk g.rdfParseFlags (g.dbDir ++ g.sourceFileName ++ RDFFileFormat.fuzzyTurtle.getRDFFileExtension)
  else
    let path := g.dbDir ++ g.sourceFileName ++ RDFFileFormat.flagExtension g.rdfParseFlags
    match disk path with
    | none => .error (.cannotOpen path)
    | some f => .ok (parsedTriples (p.rdf g.rdfParseFlags f.content))

def loadTriples (p : Parsers) (order : Triple → List Slot) (disk : Disk) : Except RdfLoadError RdfGraph :=
  if g.loadedFromRdfFile then (g.fileTriples p disk).bind (g.addAll order) else .ok g

/-! ## Loading -/

/-- The graph `ensureLoaded` parses into: the same but for its contents. -/
def emptied : RdfGraph :=
  { g with
    storage := { GengoDBGraph.create g.fileName g.store.graph.nodePool.cap g.store.graph.relPool.cap
      g.store.propPool.cap with dbDir := g.dbDir }
    nodes := .empty
    literalNodes := [] }

/-- One turn of the loop of `rebuildLiteralNodeCache`. -/
def cacheNode (id : Nat) : Option RdfGraph :=
  if ((g.nodes.get id).map (·.type)) ≠ some .literal ∨ (g.store.graph.nodes id).payload < 0 then some g
  else (g.literalKeyFor id).map fun (data, datatypeNode) => g.addLiteralNode data datatypeNode id

def rebuildLiteralNodeCache : Option RdfGraph :=
  (List.range g.nodes.size).foldlM cacheNode g

def sourcePath : String := g.dbDir ++ g.sourceFileName ++ RDFFileFormat.flagExtension g.rdfParseFlags

/-- `loadedFromCache`. -/
def usesCache (disk : Disk) : Bool := g.loadedFromRdfFile && g.storage.hasFreshCache disk g.sourcePath

/-- `storage->ensureLoaded()`. -/
def loadStorage (disk : Disk) : Except RdfLoadError RdfGraph :=
  match g.storage.ensureLoaded disk with
  | .ok storage => .ok { g with storage }
  | .error e => .error (.storage e)

def ensureLoaded (p : Parsers) (order : Triple → List Slot) (disk : Disk) : Except RdfLoadError RdfGraph :=
  if g.loaded then .ok g
  else
    let g := { g with loaded := true }
    if g.usesCache disk then
      (g.loadStorage disk).bind fun g =>
        match g.rebuildLiteralNodeCache with
        | some g => .ok g
        | none => .error .assertion
    else if g.loadedFromRdfFile then (g.emptied.loadTriples p order disk).bind (·.loadStorage disk)
    else g.loadStorage disk

/-- `RDFGraphCatalogEntry::ensureFullyLoaded`. -/
def ensureFullyLoaded (format : RDFFileFormat) (p : Parsers) (order : Triple → List Slot) (disk : Disk) :
    Except RdfLoadError RdfGraph :=
  if format = .binary then ({ g with loadedFromRdfFile := false } : RdfGraph).ensureLoaded p order disk
  else
    ({ g with
      loadedFromRdfFile := true
      rdfParseFlags := format.getRDFParseFlags
      fuzzy := decide (format = .fuzzyTurtle) } : RdfGraph).ensureLoaded p order disk

/-- A new process opens the graph: the catalog entry is read, and the graph
loaded. -/
def reopen (format : RDFFileFormat) (p : Parsers) (order : Triple → List Slot) (disk : Disk) :
    Except RdfLoadError RdfGraph :=
  match deserialize g.serialize with
  | some entry => (entry.setDBDir g.dbDir).ensureFullyLoaded format p order disk
  | none => .error .assertion

end RdfGraph
end GengoDB
