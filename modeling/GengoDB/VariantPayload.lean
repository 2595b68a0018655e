/-
Variants whose payloads know what they are. In the code a payload is 64 bits,
and every operation decides by the tag whether these are a value, the address
of a string, of a node or of an edge. Here the payload says what its
constructor stored, and an operation that reads it as something else fails
with a `Confusion`, which names the operand.

The operations are those of `VariantToStd.cpp`, `HashLowering` and
`runtime/Variant.cpp`, with the tag tests of each in the order of the source.
`GengoDB.Variant` has them on bare payloads.
-/
import GengoDB.Codec
import GengoDB.Datatypes

namespace GengoDB

open Codec (putLE)

/-! ## Payloads -/

/-- A node of a graph: the graph's address and the node's id in it. -/
structure NodeRef where
  graph : Nat
  id : Nat
  deriving DecidableEq

/-- What a payload is. A text is a `VarLen32`; `none` is the empty one of
`emptyVarLen32`. A scalar is the `VarLen32` of a literal of a custom datatype:
length of the datatype's IRI, the IRI, the lexical form. -/
inductive Payload where
  | inline (bits : BitVec 64)
  | text (s : Option Bytes)
  | scalar (raw : Bytes)
  | node (ref : NodeRef)
  | edge (address : BitVec 64)
  | invalid
  deriving DecidableEq

structure TypedVariant where
  tag : XsdType
  payload : Payload
  deriving DecidableEq

/-- What lies behind the references. -/
structure Heap where
  view : NodeRef → NodeView
  edgeText : BitVec 64 → Bytes

/-- The operand a payload belongs to; the only one is the left one. -/
inductive Side where
  | lhs | rhs
  deriving DecidableEq

/-- The payload of `side` was read as something else than it is. -/
structure Confusion where
  side : Side
  deriving DecidableEq

abbrev Decoded (α : Type) := Except Confusion α

namespace Payload

@[simp] def inline? : Payload → Option (BitVec 64)
  | inline bits => some bits
  | _ => none

@[simp] def text? : Payload → Option (Option Bytes)
  | text s => some s
  | _ => none

@[simp] def scalar? : Payload → Option Bytes
  | scalar raw => some raw
  | _ => none

@[simp] def node? : Payload → Option NodeRef
  | node ref => some ref
  | _ => none

@[simp] def edge? : Payload → Option (BitVec 64)
  | edge address => some address
  | _ => none

end Payload

/-- Read a payload as what it may be. -/
def Decoded.read {α : Type} (side : Side) : Option α → Decoded α
  | some a => .ok a
  | none => .error ⟨side⟩

namespace TypedVariant

def readInline (side : Side) (v : TypedVariant) : Decoded (BitVec 64) := .read side v.payload.inline?

def readText (side : Side) (v : TypedVariant) : Decoded (Option Bytes) := .read side v.payload.text?

def readScalar (side : Side) (v : TypedVariant) : Decoded Bytes := .read side v.payload.scalar?

def readNode (side : Side) (v : TypedVariant) : Decoded NodeRef := .read side v.payload.node?

def readEdge (side : Side) (v : TypedVariant) : Decoded (BitVec 64) := .read side v.payload.edge?

end TypedVariant

/-! ## Constructors -/

/-- A value `variant.create_scalar` takes. -/
inductive Scalar where
  | i1 (v : BitVec 1)
  | i8 (v : BitVec 8)
  | i16 (v : BitVec 16)
  | i32 (v : BitVec 32)
  | i64 (v : BitVec 64)
  | f32 (v : BitVec 32)
  | f64 (v : BitVec 64)
  | string (s : Bytes)
  | varLen (s : Bytes)

namespace Scalar

def tagForScalarType : Scalar → Option XsdType
  | i1 _ => some .boolean
  | i8 _ => some .byte
  | i16 _ => some .short
  | i32 _ => some .int
  | i64 _ => some .long
  | f32 _ => some .float
  | f64 _ => some .double
  | string _ => some .string
  | varLen _ => none

/-- The payload: `packInline` of an inline scalar, a slot with the string
otherwise. -/
def payload : Scalar → Payload
  | i1 v => .inline (v.setWidth 64)
  | i8 v => .inline (v.setWidth 64)
  | i16 v => .inline (v.setWidth 64)
  | i32 v | f32 v => .inline (v.setWidth 64)
  | i64 v | f64 v => .inline v
  | string s => .text (some s)
  | varLen s => .scalar s

end Scalar

/-- `CreateScalarOpLowering`. -/
def createScalar (typeId : Option XsdType) (s : Scalar) : Option TypedVariant :=
  (typeId.or s.tagForScalarType).map fun tag => ⟨tag, s.payload⟩

/-- A literal of a query after parsing. -/
structure LiteralExpr where
  lexicalForm : Bytes
  xsdType : XsdType
  datatypeIri : Bytes

/-- The number parsers of the translator; `none` is an exception. -/
structure NumberParsers where
  stoll : Bytes → Option (BitVec 64)
  stof : Bytes → Option (BitVec 32)
  stod : Bytes → Option (BitVec 64)
  packedDateTime : Bytes → Option (BitVec 64)

/-- `literalScalar`. -/
def literalScalar (P : NumberParsers) (lit : LiteralExpr) : Option Scalar :=
  match lit.xsdType with
  | .boolean => some (.i1 (if lit.lexicalForm = ascii "true" then 1 else 0))
  | .byte => (P.stoll lit.lexicalForm).map fun v => .i8 (v.setWidth 8)
  | .short => (P.stoll lit.lexicalForm).map fun v => .i16 (v.setWidth 16)
  | .int => (P.stoll lit.lexicalForm).map fun v => .i32 (v.setWidth 32)
  | .long | .integer => (P.stoll lit.lexicalForm).map .i64
  | .float => (P.stof lit.lexicalForm).map .f32
  | .double | .decimal => (P.stod lit.lexicalForm).map .f64
  | .string | .anyIRI => some (.string lit.lexicalForm)
  | .anyLiteralScalar =>
    some (.varLen (putLE 4 lit.datatypeIri.length ++ lit.datatypeIri ++ lit.lexicalForm))
  | _ => none

/-- The `Literal` case of `translateArithExpr`. -/
def translateLiteral (P : NumberParsers) (lit : LiteralExpr) : Option TypedVariant :=
  if lit.xsdType = .dateTime then
    (P.packedDateTime lit.lexicalForm).bind fun packed => createScalar (some .dateTime) (.i64 packed)
  else
    (literalScalar P lit).bind
      (createScalar (if lit.xsdType = .anyIRI ∨ lit.xsdType = .anyLiteralScalar then some lit.xsdType else none))

/-- `resolveRefTag`. -/
def NodeView.tag (entry : NodeView) : XsdType := if entry.payload < 0 then .node else entry.propType

/-- `extractNumericLiteral` of a node. -/
def NodeView.extractNumericLiteral (entry : NodeView) (tag : XsdType) (scratch : BitVec 64) : BitVec 64 :=
  match tag.classifyStorage with
  | (.blob, _) => scratch
  | (shape, width) => writeLow width (entry.stored shape) scratch

/-- `CreateNodeRefOpLowering`; `scratch` is what the stack slot held. -/
def TypedVariant.createNodeRef (H : Heap) (ref : NodeRef) (scratch : BitVec 64) : TypedVariant where
  tag := (H.view ref).tag
  payload :=
    if (H.view ref).tag.isNumericFamily then .inline ((H.view ref).extractNumericLiteral (H.view ref).tag scratch)
    else if (H.view ref).tag = .node then .node ref
    else if (H.view ref).tag.isByteString then .text (some (H.view ref).lex)
    else .node ref

/-- `CreateEdgeRefOpLowering`. -/
def TypedVariant.createEdgeRef (address : BitVec 64) : TypedVariant := ⟨.edge, .edge address⟩

/-- What `UnspecifiedIfOpLowering` makes of a variant. -/
def TypedVariant.unspecifiedIf (cond : Bool) (v : TypedVariant) : TypedVariant :=
  if cond then ⟨.unspecified, .invalid⟩ else v

/-! ## Literals -/

/-- `VariantArithPredicate`. -/
inductive ArithPredicate where
  | add | sub | mul | div
  deriving DecidableEq

/-- More of rdf4cpp, and the arithmetic of floats. `none` is a null literal;
`value t` are the bytes of `value<T>()`, zero-extended. -/
structure Rdf4cppOps (Lit : Type) extends Rdf4cpp Lit where
  arith : ArithPredicate → Lit → Lit → Option Lit
  cast : Lit → XsdType → Option Lit
  value : XsdType → Lit → BitVec 64
  languageTag : Lit → Bytes
  langMatches : Bytes → Bytes → Bool
  print : Lit → Bytes
  floatArith : ArithPredicate → (w : Nat) → BitVec w → BitVec w → BitVec w

namespace TypedVariant

variable {Lit : Type} (R : Rdf4cpp Lit) (H : Heap)

def getLiteralFromNumeric (side : Side) (v : TypedVariant) : Decoded (Option Lit) :=
  match v.tag.fromInt32 with
  | none => .ok none
  | some t =>
    if t.isNumericFamily then
      (v.readInline side).map fun bits => some (R.fromValue t (lowBytes t.classifyStorage.2 bits))
    else .ok none

/-- `reconstructBlobLiteral` of a node. -/
def blobLiteral (entry : NodeView) : Option Lit :=
  if entry.payload < 0 then none
  else
    match entry.propType.fromInt32 with
    | none => none
    | some t =>
      if entry.lang ≠ [] then some (R.makeLangTagged entry.lex entry.lang)
      else if t = .anyLiteralNode then some (R.makeTyped entry.lex (.iri (stripBrackets entry.datatypeName)))
      else some (R.makeTyped entry.lex (.xsd t))

/-- `reconstructScalarLiteral`. -/
def scalarLiteral (raw : Bytes) : Lit :=
  let dtLen := littleEndian (raw.take 4)
  R.makeTyped ((raw.drop 4).drop dtLen) (.iri ((raw.drop 4).take dtLen))

def reconstructLiteral (side : Side) (v : TypedVariant) : Decoded (Option Lit) :=
  match v.tag.fromInt32 with
  | none | some .unspecified => .ok none
  | some t =>
    if t.isByteString then (v.readText side).map fun s => some (R.makeTyped (s.getD []) (.xsd t))
    else if t = .anyLiteralScalar then (v.readScalar side).map fun raw => some (scalarLiteral R raw)
    else if t.classifyStorage.1 = .blob then (v.readNode side).map fun ref => blobLiteral R (H.view ref)
    else v.getLiteralFromNumeric R side

/-! ## `variant.cmp` -/

variable (p : CmpPredicate) (a b : TypedVariant)

def compareNumericCross : Decoded (Option Bool) := do
  let l ← a.getLiteralFromNumeric R .lhs
  let r ← b.getLiteralFromNumeric R .rhs
  return match l, r with
    | some l, some r => R.compare p l r
    | _, _ => none

def compareBlobLiteral : Decoded (Option Bool) := do
  let l ← a.reconstructLiteral R H .lhs
  let r ← b.reconstructLiteral R H .rhs
  return match l, r with
    | some l, some r =>
      if (p = .eq ∨ p = .neq) ∧ (isCustomDatatypeTag a.tag || isCustomDatatypeTag b.tag) then
        if p = .eq then termEq R l r else (termEq R l r).map not
      else R.compare p l r
    | _, _ => none

/-- The tags of `fastCases`. -/
def hasFastCase (tag : XsdType) : Bool := tag == .boolean || XsdType.fixedNumericTags.any fun n => n.type = tag

def compareText : Decoded (Option Bool) := do
  let l ← a.readText .lhs
  let r ← b.readText .rhs
  return some (applyStringCmp p (l.getD []) (r.getD []))

def sameTagSlow : Decoded (Option Bool) :=
  if a.tag.isNumericFamily then compareNumericCross R p a b
  else if a.tag = .string then compareText p a b
  else if a.tag = .node then do
    let l ← a.readNode .lhs
    let r ← b.readNode .rhs
    return some (p.holds (compare (H.view l).uid (H.view r).uid))
  else if a.tag = .edge then do
    let l ← a.readEdge .lhs
    let r ← b.readEdge .rhs
    return some (compareEdgeRefRef p l r)
  else if a.tag = .anyIRI then compareText p a b
  else if a.tag = .unspecified then return none
  else compareBlobLiteral R H p a b

/-- `compareIriNodeRef` on a node's entry. -/
def compareIri (iri : Bytes) (entry : NodeView) : Option Bool :=
  if 0 ≤ entry.payload ∨ entry.nodeType ≠ .iri then
    match p with
    | .eq => some false
    | .neq => some true
    | _ => none
  else some (p.holds (compareBytes (60 :: (iri ++ [62])) entry.nodeName))

def crossTag : Decoded (Option Bool) :=
  if isResource a.tag && isLiteral b.tag || isLiteral a.tag && isResource b.tag then
    return match p with
      | .eq => some false
      | .neq => some true
      | _ => none
  else if a.tag.isNumericFamily && b.tag.isNumericFamily then compareNumericCross R p a b
  else if a.tag == .integer || b.tag == .integer then compareBlobLiteral R H p a b
  else if a.tag == .anyIRI && b.tag == .node then do
    let iri ← a.readText .lhs
    let ref ← b.readNode .rhs
    return compareIri p (iri.getD []) (H.view ref)
  else if a.tag == .node && b.tag == .anyIRI then do
    let iri ← b.readText .rhs
    let ref ← a.readNode .lhs
    return compareIri p.reversePredicate (iri.getD []) (H.view ref)
  else if !a.tag.isScratchPayload && !b.tag.isScratchPayload then compareBlobLiteral R H p a b
  else return none

/-- `CmpOpLowering`. -/
def cmp : Decoded (Option Bool) :=
  if a.tag = b.tag then
    if hasFastCase a.tag then do
      let l ← a.readInline .lhs
      let r ← b.readInline .rhs
      return fastCase p a.tag l r
    else sameTagSlow R H p a b
  else crossTag R H p a b

/-! ## `db.hash` and `variant.order` -/

/-- `HashLowering::hashImpl`. -/
def hash (hashVarLenData : Bytes → BitVec 64) (total : Option (BitVec 64)) (v : TypedVariant) : Decoded (BitVec 64) :=
  if v.tag.isNumericFamily then do
    let bits ← v.readInline .lhs
    return combineHashes (hash64 (hashNumeric R bits v.tag)) total
  else if v.tag.isByteString then do
    let s ← v.readText .lhs
    return combineHashes (hashVarLen hashVarLenData s) total
  else if v.tag = .node then do
    let ref ← v.readNode .lhs
    return combineHashes (hash64 (BitVec.ofInt 64 (H.view ref).uid)) total
  else if v.tag = .unspecified then return total.getD 0
  else do
    let ref ← v.readNode .lhs
    return combineHashes (hashVarLen hashVarLenData ((blobLiteral R (H.view ref)).map R.lexicalForm)) total

def rankOf (side : Side) (v : TypedVariant) : Decoded Nat :=
  if v.tag ≠ .node then return 2
  else do
    let ref ← v.readNode side
    return if (H.view ref).nodeType = .bnode then 0 else 1

/-- `VariantRuntime::compareOrder`. -/
def compareOrder : Decoded Int :=
  if a.tag = .edge ∨ b.tag = .edge then
    if ¬ (a.tag = .edge ↔ b.tag = .edge) then return if a.tag = .edge then 1 else -1
    else do
      let l ← a.readEdge .lhs
      let r ← b.readEdge .rhs
      return if l = r then 0 else if l.slt r then -1 else 1
  else do
    let lhsRank ← a.rankOf H .lhs
    let rhsRank ← b.rankOf H .rhs
    if lhsRank ≠ rhsRank then return if lhsRank < rhsRank then -1 else 1
    else if lhsRank ≠ 2 then do
      let l ← a.readNode .lhs
      let r ← b.readNode .rhs
      return if (H.view l).nodeName ≠ (H.view r).nodeName then
          if (H.view l).nodeName < (H.view r).nodeName then -1 else 1
        else 0
    else do
      let l ← a.reconstructLiteral R H .lhs
      let r ← b.reconstructLiteral R H .rhs
      return match l, r with
        | some l, some r =>
          match R.order l r with
          | .lt => -1
          | .gt => 1
          | .eq => 0
        | _, _ => 0

/-! ## Texts -/

/-- `computeLexicalForm`. -/
def computeLexicalForm (side : Side) (v : TypedVariant) : Decoded (Option Bytes) :=
  if v.tag = .unspecified then return some []
  else if v.tag.isNumericFamily then do
    let lit ← v.getLiteralFromNumeric R side
    return lit.map R.lexicalForm
  else if v.tag = .node then do
    let ref ← v.readNode side
    return some (stripBrackets (H.view ref).nodeName)
  else if v.tag = .edge then do
    let address ← v.readEdge side
    return some (H.edgeText address)
  else if v.tag.isByteString then v.readText side
  else if v.tag = .anyIRI then v.readText side
  else if v.tag = .anyLiteralScalar then do
    let raw ← v.readScalar side
    return some ((raw.drop 4).drop (littleEndian (raw.take 4)))
  else do
    let ref ← v.readNode side
    return (blobLiteral R (H.view ref)).map R.lexicalForm

end TypedVariant

namespace TypedVariant

variable {Lit : Type} (R : Rdf4cppOps Lit) (H : Heap)

/-- `computeFullForm`. -/
def computeFullForm (v : TypedVariant) : Decoded (Option Bytes) :=
  if v.tag = .unspecified then return some []
  else if v.tag = .node then do
    let ref ← v.readNode .lhs
    return some (H.view ref).nodeName
  else if v.tag = .anyIRI then v.readText .lhs
  else if v.tag = .edge then do
    let address ← v.readEdge .lhs
    return some (H.edgeText address)
  else do
    let lit ← v.reconstructLiteral R.toRdf4cpp H .lhs
    return lit.map R.print

/-- `StrCastOpLowering`. -/
def strCast (v : TypedVariant) : Decoded TypedVariant := do
  let lex ← v.computeLexicalForm R.toRdf4cpp H .lhs
  return ⟨.string, .text lex⟩

/-- `ConcatOpLowering`. -/
def concat (a b : TypedVariant) : Decoded TypedVariant := do
  let l ← a.computeLexicalForm R.toRdf4cpp H .lhs
  let r ← b.computeLexicalForm R.toRdf4cpp H .rhs
  return ⟨.string, .text (some (l.getD [] ++ r.getD []))⟩

/-- `LangCastOpLowering` and `VariantRuntime::langTag`. -/
def langCast (v : TypedVariant) : Decoded TypedVariant := do
  let lit ← v.reconstructLiteral R.toRdf4cpp H .lhs
  return ⟨.string, .text (lit.map R.languageTag)⟩

/-- `VariantRuntime::langMatches`. -/
def langMatches (range : Bytes) (v : TypedVariant) : Decoded (Option Bool) := do
  let lit ← v.reconstructLiteral R.toRdf4cpp H .lhs
  return lit.map fun lit => R.langMatches (R.lexicalForm lit) range

/-! ## Casts and arithmetic -/

/-- The variant of a result that goes through the eight bytes `scratch`: the
bytes of its value if its tag is numeric (`extractNumericByTag`). -/
def ofNumericResult (scratch : BitVec 64) (lit : Lit) : TypedVariant :=
  let tag := XsdType.fromIri (some (R.datatype lit))
  if tag.isNumericFamily then ⟨tag, .inline (writeLow tag.classifyStorage.2 (R.value tag lit) scratch)⟩
  else ⟨.unspecified, .inline scratch⟩

/-- `CastOpLowering` and `castLiteral`. The lowering accepts booleans and the
fixed numeric tags as targets. -/
def cast (scratch : BitVec 64) (target : XsdType) (v : TypedVariant) : Decoded TypedVariant :=
  if v.tag = target then return v
  else do
    let lit ← v.reconstructLiteral R.toRdf4cpp H .lhs
    return match lit.bind (R.cast · target) with
      | none => ⟨.unspecified, .inline scratch⟩
      | some casted => ofNumericResult R scratch casted

/-- `applyIntArith`; division never gets here. -/
def applyIntArith (p : ArithPredicate) {w : Nat} (l r : BitVec w) : BitVec w :=
  match p with
  | .add => l + r
  | .sub => l - r
  | .mul => l * r
  | .div => l / r

/-- The fast case of an entry of `fixedNumericTags`. -/
def fastArith (p : ArithPredicate) (n : XsdType.FixedNumericTag) (l r : BitVec 64) : TypedVariant :=
  let l := l.setWidth n.bitWidth
  let r := r.setWidth n.bitWidth
  ⟨n.type, .inline ((if n.isFloat then R.floatArith p n.bitWidth l r else applyIntArith p l r).setWidth 64)⟩

/-- `arithBlobNumeric` and the packing of its result. -/
def arithBlobNumeric (scratch : BitVec 64) (p : ArithPredicate) (a b : TypedVariant) : Decoded TypedVariant := do
  let l ← a.reconstructLiteral R.toRdf4cpp H .lhs
  let r ← b.reconstructLiteral R.toRdf4cpp H .rhs
  return match l, r with
    | some l, some r =>
      match R.arith p l r with
      | none => ⟨.unspecified, .inline scratch⟩
      | some result =>
        let tag := XsdType.fromIri (some (R.datatype result))
        if tag = .integer ∨ tag = .decimal then ⟨tag, .text (some (R.lexicalForm result))⟩
        else ofNumericResult R scratch result
    | _, _ => ⟨.unspecified, .inline scratch⟩

/-- `ArithOpLowering`. -/
def arith (scratch : BitVec 64) (p : ArithPredicate) (a b : TypedVariant) : Decoded TypedVariant :=
  match XsdType.fixedNumericTags.find? fun n => n.type = a.tag ∧ (n.isFloat ∨ p ≠ .div) with
  | some n =>
    if a.tag = b.tag then do
      let l ← a.readInline .lhs
      let r ← b.readInline .rhs
      return fastArith R p n l r
    else arithBlobNumeric R H scratch p a b
  | none => arithBlobNumeric R H scratch p a b

end TypedVariant
end GengoDB
