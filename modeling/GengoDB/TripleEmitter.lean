/-
The code generated for a triple pattern (`TripleEmitter.cpp`,
`NamedGraphManager.cpp`). `lower` starts from the edges of one node — the
subject or the object of the pattern, when it is an identifier or bound — or
from all edges, and then goes through the other slots: an identifier filters
by node id, a column that has a value filters by `variant.cmp eq`, and any
other column is defined.

The stream is modelled one row at a time. `localTerms` maps a column to the
reference its values are under; here it maps it to the value in the row.
Columns of the stream that the pattern does not mention stay as they are and
are left out.
-/
import GengoDB.EdgeScan
import GengoDB.GraphNodeIndex
import GengoDB.ResolveNode

namespace GengoDB

open EdgeScan (Layout Mode)

/-! ## Patterns -/

namespace Sparql

/-- `sparql::Term`. -/
inductive Term (V B T : Type) where
  | iri (value : T)
  | var (name : V)
  | blankNode (label : B)

structure Triple (V B T : Type) where
  s : Term V B T
  p : Term V B T
  o : Term V B T

variable {V B T : Type}

def Term.isIdentifier : Term V B T → Bool
  | .iri _ => true
  | _ => false

/-- The column of a variable, or the one `bnodesToVariables` makes for a blank
node. -/
inductive Column (V B : Type) where
  | var (name : V)
  | blankNode (label : B)
  deriving DecidableEq

def Term.column : Term V B T → Option (Column V B)
  | .iri _ => none
  | .var name => some (.var name)
  | .blankNode label => some (.blankNode label)

def Triple.term (t : Triple V B T) : Slot → Term V B T
  | .subject => t.s
  | .predicate => t.p
  | .object => t.o

end Sparql

open Sparql (Column)

/-! ## Emitters -/

/-- The columns that have a value, and the values in one row. -/
abbrev LocalTerms (V B : Type) := List (Column V B × TypedVariant)

/-- What `lower` makes of a row and an edge; the degree is the edge's payload. -/
structure Emitted (V B : Type) where
  terms : LocalTerms V B
  truthDegr : Option Int
  deriving DecidableEq

inductive LowerError where
  | resolve (e : ResolveError)
  | confused (c : Confusion)
  | anchorLacksBinding
  | outOfFuel
  deriving DecidableEq

/-- Where the edges of a row are taken from. -/
inductive Anchor where
  | ident (iri : Bytes)
  | value (v : TypedVariant)

/-- A graph, the address and the layout it has in memory, and what the runtime
calls. `scratch` is what the stack slots held. -/
structure GraphEmitter (Lit : Type) where
  lib : Rdf4cpp Lit
  heap : Heap
  graph : RdfGraph
  address : Nat
  layout : Layout
  scratch : BitVec 64

namespace GraphEmitter

variable {Lit α : Type} (E : GraphEmitter Lit)

/-- `CreateIdentifierOp`: `NamedGraphManager::resolve` of a registered graph. -/
def createIdentifier (iri : Bytes) : Int :=
  match E.graph.nodes.getSafe (.ofIri iri) with
  | some id => id
  | none => -1

/-- `filterByIdentifier` against an identifier. -/
def filterByIdentifier (ident : Bytes) (id : Int) (row : α) : Option α :=
  if E.createIdentifier ident = id then some row else none

def wrapNode (id : Nat) : TypedVariant := .createNodeRef E.heap ⟨E.address, id⟩ E.scratch

/-- The edge record at an address. -/
def edge (ptr : Int) : RelEntry Int := E.graph.store.graph.rels (E.layout.relId ptr)

/-- The node an anchor stands for; `none` is an identifier that is not valid. -/
def resolveAnchor : Anchor → Except LowerError (Option Nat)
  | .ident iri => .ok (if 0 ≤ E.createIdentifier iri then some (E.createIdentifier iri).toNat else none)
  | .value v => (v.resolveNode E.graph E.address).mapError .resolve

/-- `emitNodeToEdge`, with at most `fuel` rounds of the scan. -/
def emitNodeToEdge (fuel : Nat) (anchor : Anchor) (direction : Mode) : Except LowerError (List Int) := do
  match ← E.resolveAnchor anchor with
  | none => return []
  | some id =>
    match EdgeScan.scanAnchored fuel E.layout E.graph.store.graph direction (E.layout.nodeRef id) with
    | none => .error .outOfFuel
    | some edges => return edges

end GraphEmitter

structure TripleEmitter (Lit V B : Type) extends GraphEmitter Lit where
  triple : Sparql.Triple V B Bytes
  truthDegr : Bool

namespace TripleEmitter

variable {Lit V B : Type} [DecidableEq V] [DecidableEq B] (E : TripleEmitter Lit V B)

def anchorAttr (term : Sparql.Term V B Bytes) (row : LocalTerms V B) : Except LowerError Anchor :=
  match term with
  | .iri ident => .ok (.ident ident)
  | term =>
    match term.column.bind fun c => row.lookup c with
    | some v => .ok (.value v)
    | none => .error .anchorLacksBinding

/-- Rows whose comparison is null are dropped. -/
def filterVariantsEqual (left right : TypedVariant) (row : LocalTerms V B) : Decoded (Option (LocalTerms V B)) := do
  let c ← TypedVariant.cmp E.lib E.heap .eq left right
  return if c = some true then some row else none

def finish (column : Column V B) (raw : Nat) (row : LocalTerms V B) : Decoded (Option (LocalTerms V B)) :=
  match row.lookup column with
  | some bound => E.filterVariantsEqual (E.wrapNode raw) bound row
  | none => .ok (some (Assoc.emplace row column (E.wrapNode raw)))

def emitTerm (term : Sparql.Term V B Bytes) (nodeMember : Int) (row : LocalTerms V B) :
    Decoded (Option (LocalTerms V B)) :=
  match term with
  | .iri ident => .ok (E.filterByIdentifier ident nodeMember row)
  | .var name => E.finish (.var name) nodeMember.toNat row
  | .blankNode label => E.finish (.blankNode label) nodeMember.toNat row

/-- `emitPredicate`; the node of a predicate is looked up by the edge's
type. -/
def emitPredicate (e : RelEntry Int) (row : LocalTerms V B) : Decoded (Option (LocalTerms V B)) :=
  E.emitTerm E.triple.p e.typeId.toInt row

def emitSlot (e : RelEntry Int) : Slot → LocalTerms V B → Decoded (Option (LocalTerms V B))
  | .subject, row => E.emitTerm E.triple.s e.firstNodeId row
  | .predicate, row => E.emitPredicate e row
  | .object, row => E.emitTerm E.triple.o e.secondNodeId row

def emitSlots (e : RelEntry Int) : List Slot → LocalTerms V B → Decoded (Option (LocalTerms V B))
  | [], row => .ok (some row)
  | slot :: slots, row => do
    match ← E.emitSlot e slot row with
    | some row => emitSlots e slots row
    | none => return none

/-- `emitTruthDegree`, if the pattern asks for it. -/
def emitTruthDegree (e : RelEntry Int) (row : LocalTerms V B) : Emitted V B :=
  ⟨row, if E.truthDegr then some e.payload else none⟩

def emitEdges (slots : List Slot) (row : LocalTerms V B) : List Int → Except LowerError (List (Emitted V B))
  | [] => .ok []
  | ptr :: edges => do
    let r ← (E.emitSlots (E.edge ptr) slots row).mapError .confused
    let out ← emitEdges slots row edges
    return match r with
      | some row => E.emitTruthDegree (E.edge ptr) row :: out
      | none => out

/-- Without an anchor the subject is one if it is an identifier; the test for
the object looks at the subject again. -/
def lower (fuel : Nat) (anchor : Option Slot) (row : LocalTerms V B) : Except LowerError (List (Emitted V B)) :=
  let anchorSubject : Bool := match anchor with
    | some slot => decide (slot = .subject)
    | none => E.triple.s.isIdentifier
  let anchorObject : Bool := match anchor with
    | some slot => decide (slot = .object)
    | none => !anchorSubject && E.triple.s.isIdentifier
  if anchorSubject then do
    let edges ← E.emitNodeToEdge fuel (← anchorAttr E.triple.s row) .outgoing
    E.emitEdges [.predicate, .object] row edges
  else if anchorObject then do
    let edges ← E.emitNodeToEdge fuel (← anchorAttr E.triple.o row) .incoming
    E.emitEdges [.subject, .predicate] row edges
  else E.emitEdges [.subject, .predicate, .object] row (EdgeScan.scanAll E.layout E.graph.store.graph)

end TripleEmitter

end GengoDB
