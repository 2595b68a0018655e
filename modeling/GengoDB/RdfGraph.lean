/-
RDF graphs (`semantics/RdfGraph.h`, `.cpp`): a property graph whose nodes are
RDF terms, with a dictionary of the resources and a cache of the literals.
`resolve` interns a term. A literal is the pair of its datatype's node and its
value in bytes — four for the small datatypes, eight for the 64-bit ones and
the packed dates, language tag and lexical form for the rest — and is stored
as a property of its node, from which `literalKeyFor` gets the pair back.

`none` is a failed assertion: a capacity exceeded, a language tag or a date
that cannot be stored, a value of the wrong type, a term in a place it cannot
be in. `addTriple` resolves its three terms as arguments of one call, so in
an order the compiler chooses; the order is a parameter.
-/
import GengoDB.GraphFile
import GengoDB.Identifiers

namespace GengoDB

open Codec

/-! ## Terms -/

/-- A blank node's label. -/
structure BlankLabel where
  bytes : Bytes
  noZero : 0 ∉ bytes
  deriving DecidableEq

/-- What `value()` of a literal holds, as far as it is looked at. Timezones
are offsets in minutes. -/
inductive LiteralValue where
  | bits (v : BitVec 64)
  | date (year : Int) (month day : Nat) (tz : Option Int)
  | dateTime (nanos : Int) (tz : Option Int)
  | other
  deriving DecidableEq

structure Literal where
  datatype : Bytes
  value : LiteralValue
  languageTag : Bytes
  lexicalForm : Bytes
  deriving DecidableEq

inductive Term where
  | iri (identifier : Bytes)
  | bnode (label : BlankLabel)
  | literal (l : Literal)
  deriving DecidableEq

/-! ## Values in bytes -/

namespace RdfDatatype

/-- `RdfDatatypeInlineHelper`: the datatypes kept in the property record, and
the size of their values. -/
def inlinedTypes : List (String × Nat) :=
  [("boolean", 1), ("byte", 1), ("float", 4), ("int", 4), ("short", 2), ("unsignedByte", 1), ("unsignedInt", 4),
   ("unsignedShort", 2)]

def inlineWidth (datatype : Bytes) : Option Nat :=
  (inlinedTypes.find? fun e => XsdType.xsdIri e.1 == datatype).map (·.2)

/-- `RdfDatatypeFixedHelper::Kind`. -/
inductive Kind where
  | int64 | uint64 | double | date | dateTime
  deriving DecidableEq

def kindOf (datatype : Bytes) : Option Kind :=
  if datatype = XsdType.xsdIri "long" then some .int64
  else if datatype = XsdType.xsdIri "unsignedLong" then some .uint64
  else if datatype = XsdType.xsdIri "double" then some .double
  else if datatype = XsdType.xsdIri "date" then some .date
  else if datatype = XsdType.xsdIri "dateTime" then some .dateTime
  else none

def dateTzBias : Int := 841

/-- The sixteen bits of a timezone; zero is none. -/
def packTz (tz : Option Int) : BitVec 64 :=
  match tz with
  | none => 0
  | some offset => ((BitVec.ofInt 32 (offset + dateTzBias)).setWidth 16).setWidth 64

def packDate (year : Int) (month day : Nat) (tz : Option Int) : Option (BitVec 64) :=
  if -2 ^ 31 ≤ year ∧ year ≤ 2 ^ 31 - 1 then
    some (((BitVec.ofInt 32 year).setWidth 64 <<< 32) ||| (((BitVec.ofNat 8 month).setWidth 64 <<< 24) |||
      (((BitVec.ofNat 8 day).setWidth 64 <<< 16) ||| packTz tz)))
  else none

def packDateTime (nanos : Int) (tz : Option Int) : Option (BitVec 64) :=
  let millis := nanos.tdiv 1000000
  if -2 ^ 47 ≤ millis ∧ millis ≤ 2 ^ 47 - 1 then
    some (((BitVec.ofInt 48 millis).setWidth 64 <<< 16) ||| packTz tz)
  else none

/-- `extract` and the packing of a value of a fixed kind. -/
def fixedValue : Kind → LiteralValue → Option (BitVec 64)
  | .int64, .bits v | .uint64, .bits v | .double, .bits v => some v
  | .date, .date year month day tz => packDate year month day tz
  | .dateTime, .dateTime nanos tz => packDateTime nanos tz
  | _, _ => none

end RdfDatatype

/-- A value as it is stored. -/
inductive EncodedValue where
  | inlined (bits : UInt32)
  | fixed (kind : RdfDatatype.Kind) (v : BitVec 64)
  | blob (data : Bytes)

/-- The bytes a value is looked up by. -/
def EncodedValue.bytes : EncodedValue → Bytes
  | .inlined bits => putLE 4 bits.toNat
  | .fixed _ v => putLE 8 v.toNat
  | .blob data => data

/-- The first part of `resolve(Literal)`. -/
def Literal.encode (l : Literal) : Option EncodedValue :=
  match RdfDatatype.inlineWidth l.datatype with
  | some width =>
    match l.value with
    | .bits v => some (.inlined (UInt32.ofBitVec ((v.setWidth (8 * width)).setWidth 32)))
    | _ => none
  | none =>
    match RdfDatatype.kindOf l.datatype with
    | some kind => (RdfDatatype.fixedValue kind l.value).map (.fixed kind)
    | none =>
      if l.languageTag.length ≤ 255 then
        some (.blob (Fin.ofNat 256 l.languageTag.length :: (l.languageTag ++ l.lexicalForm)))
      else none

/-! ## Value pools by kind -/

namespace PropertyData

def column (d : PropertyData) : RdfDatatype.Kind → List (BitVec 64)
  | .int64 | .date | .dateTime => d.i64
  | .uint64 => d.ui64
  | .double => d.double

def addFixed (d : PropertyData) (kind : RdfDatatype.Kind) (v : BitVec 64) : Nat × PropertyData :=
  match kind with
  | .int64 | .date | .dateTime => d.addI64 v
  | .uint64 => d.addUi64 v
  | .double => d.addDouble v

/-- Store a value; what comes back goes into the property record. -/
def storeValue (d : PropertyData) : EncodedValue → Option (UInt32 × PropertyData)
  | .inlined bits => some (bits, d)
  | .fixed kind v => some (UInt32.ofNat (d.addFixed kind v).1, (d.addFixed kind v).2)
  | .blob data => (d.addBlob .string data).map fun (idx, d) => (UInt32.ofNat idx, d)

/-- The bytes of a stored value of a datatype, as `literalKeyFor` finds
them. -/
def valueBytes (d : PropertyData) (datatype : Bytes) (value : UInt32) : Option Bytes :=
  if (RdfDatatype.inlineWidth datatype).isSome then some (putLE 4 value.toNat)
  else
    match RdfDatatype.kindOf datatype with
    | some kind => ((d.column kind)[value.toNat]?).map fun v => putLE 8 v.toNat
    | none => d.getBlob .string value.toNat

end PropertyData

/-! ## Operations of the storage -/

namespace PropertyStore

def addNode (s : PropertyStore) : Option PropertyStore :=
  s.toPropertyGraph.addNode.map fun (_, g) => { s with toPropertyGraph := g }

def addNodeProperty (s : PropertyStore) (node : Int) (key type value : UInt32) : Option PropertyStore :=
  (s.toPropertyGraph.addPropertyToChain (.node node) key type value).map fun (_, g) => { s with toPropertyGraph := g }

def addRelationship (s : PropertyStore) (src dst : Int) (typeId : UInt32) : Option (Int × PropertyStore) :=
  (s.toPropertyGraph.addRelationship src dst typeId).map fun (id, g) => (id, { s with toPropertyGraph := g })

def setRelPayload (s : PropertyStore) (rel payload : Int) : PropertyStore :=
  { s with toPropertyGraph := s.toPropertyGraph.setChainHead (.rel rel) payload }

end PropertyStore

/-! ## RDF graphs -/

/-- The parse flags that are looked at. -/
inductive ParsingFlag where
  | turtle | other
  deriving DecidableEq

structure RdfGraph where
  iri : Bytes
  storage : GengoDBGraph
  nodes : NodeIdDict
  literalNodes : List ((Bytes × Nat) × Nat)
  fileName : String
  sourceFileName : String
  dbDir : String
  loadedFromRdfFile : Bool
  rdfParseFlags : ParsingFlag
  fuzzy : Bool
  loaded : Bool

/-- The places of a triple. -/
inductive Slot where
  | subject | predicate | object
  deriving DecidableEq

/-- A triple and its truth degree, the bits of a `float`. -/
structure Triple where
  subject : Term
  predicate : Term
  object : Term
  truth : BitVec 32
  deriving DecidableEq

def Triple.term (t : Triple) : Slot → Term
  | .subject => t.subject
  | .predicate => t.predicate
  | .object => t.object

namespace RdfGraph

/-- `RdfGraph::create`; a source file without a name has the graph's. -/
def create (fileName : String) (iri : Bytes) (sourceFileName : String) (nodeCapacity relCapacity propCapacity : Int) :
    RdfGraph where
  iri := iri
  storage := .create fileName nodeCapacity relCapacity propCapacity
  nodes := .empty
  literalNodes := []
  fileName := fileName
  sourceFileName := if sourceFileName = "" then fileName else sourceFileName
  dbDir := ""
  loadedFromRdfFile := false
  rdfParseFlags := .turtle
  fuzzy := false
  loaded := false

variable (g : RdfGraph)

/-- `storage->storage()`. -/
def store : PropertyStore := g.storage.storage

def setStore (s : PropertyStore) : RdfGraph := { g with storage := { g.storage with storage := s } }

def ensureNode : Option RdfGraph :=
  if g.store.graph.nodePool.mark.toNat < g.nodes.size then g.store.addNode.map g.setStore else some g

/-- `resolve(IRI)` and `resolve(BlankNode)`. -/
def resolveResource (nid : NodeId) : Option (Nat × RdfGraph) :=
  let (id, nodes) := g.nodes.getOrInsert nid
  ({ g with nodes } : RdfGraph).ensureNode.map (id, ·)

def resolveIri (iri : Bytes) : Option (Nat × RdfGraph) := g.resolveResource (.ofIri iri)

def resolveBlank (label : BlankLabel) : Option (Nat × RdfGraph) :=
  g.resolveResource (.ofBlank label.bytes)

def addLiteralNode (data : Bytes) (datatypeNode id : Nat) : RdfGraph :=
  { g with literalNodes := Assoc.emplace g.literalNodes (data, datatypeNode) id }

/-- The second part of `resolve(Literal)`: a literal that is not there yet. -/
def insertLiteral (datatype : Bytes) (datatypeNode : Nat) (enc : EncodedValue) :
    Option (Nat × RdfGraph) := do
  let (id, nodes) := g.nodes.insert .literal
  let g ← ({ g with nodes } : RdfGraph).ensureNode
  let (value, propData) ← g.store.propData.storeValue enc
  let g := g.setStore { g.store with propData }
  let s ← g.store.addNodeProperty id (UInt32.ofNat datatypeNode)
    (UInt32.ofNat (XsdType.fromIri (some datatype)).toInt32) value
  return (id, (g.setStore s).addLiteralNode enc.bytes datatypeNode id)

def resolveLiteral (l : Literal) : Option (Nat × RdfGraph) := do
  let enc ← l.encode
  let (datatypeNode, g) ← g.resolveIri l.datatype
  match g.literalNodes.lookup (enc.bytes, datatypeNode) with
  | some id => return (id, g)
  | none => g.insertLiteral l.datatype datatypeNode enc

def resolve : Term → Option (Nat × RdfGraph)
  | .iri iri => g.resolveIri iri
  | .bnode label => g.resolveBlank label
  | .literal l => g.resolveLiteral l

/-- The bytes and the datatype's node of a stored literal. -/
def literalKeyFor (id : Nat) : Option (Bytes × Nat) :=
  let payload := (g.store.graph.nodes id).payload
  if 0 ≤ payload ∧ payload < g.store.propPool.mark then
    let p := g.store.props payload
    let datatype := ((g.nodes.get p.key.toNat).bind (·.iri)).getD []
    (g.store.propData.valueBytes datatype p.value).map (·, p.key.toNat)
  else none

/-- Evaluate `resolve` of the terms of a triple in an order. -/
def resolveSlots (g : RdfGraph) (t : Triple) : List Slot → Option (List (Slot × Nat) × RdfGraph)
  | [] => some ([], g)
  | slot :: order => do
    let (id, g) ← g.resolve (t.term slot)
    let (ids, g) ← g.resolveSlots t order
    return ((slot, id) :: ids, g)

/-- The ids a triple's terms were given. -/
structure TripleIds where
  subject : Nat
  predicate : Nat
  object : Nat

def TripleIds.id (ids : TripleIds) : Slot → Nat
  | .subject => ids.subject
  | .predicate => ids.predicate
  | .object => ids.object

/-- The float 1. -/
def one32 : BitVec 32 := 0x3F800000

/-- `addTriple` of three nodes: the predicate is an IRI, the subject no
literal. The relationship's payload is the truth degree. -/
def addTriple (order : List Slot) (t : Triple) : Option (TripleIds × RdfGraph) :=
  match t.predicate, t.subject with
  | .iri _, .iri _ | .iri _, .bnode _ => do
    let (ids, g) ← g.resolveSlots t order
    let subject ← ids.lookup .subject
    let object ← ids.lookup .object
    let predicate ← ids.lookup .predicate
    let (rel, s) ← g.store.addRelationship subject object (UInt32.ofNat predicate)
    let truth := if g.fuzzy then t.truth else one32
    return ({ subject, predicate, object }, g.setStore (s.setRelPayload rel truth.toInt))
  | _, _ => none

/-- A sequence of calls: the ids each triple was given, and the graph. -/
def addTriples (g : RdfGraph) : List (List Slot × Triple) → Option (List TripleIds × RdfGraph)
  | [] => some ([], g)
  | (order, t) :: rest => do
    let (ids, g) ← g.addTriple order t
    let (all, g) ← g.addTriples rest
    return (ids :: all, g)

/-! ## Questions -/

/-- `node_from_iri`. -/
def nodeFromIri (iri : Bytes) : Option Nat := g.nodes.getSafe (.ofIri iri)

/-- `node_from_rdf_literal`. -/
def nodeFromRdfLiteral (datatypeIri data : Bytes) : Option Nat :=
  (g.nodes.getSafe (.ofIri datatypeIri)).bind fun datatypeNode => g.literalNodes.lookup (data, datatypeNode)

end RdfGraph
end GengoDB
