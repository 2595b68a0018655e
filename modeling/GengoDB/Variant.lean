/-
The variant, GengoDB's type for an RDF term in a query: a tag (the XSD
datatype, or what kind of resource) and 64 bits of payload. Depending on the
tag the payload is the value itself, the address of a string, of a node or of
an edge of a graph.

`cmp` is the comparison the compiler emits for `variant.cmp`
(`CmpOpLowering`): a nest of tag tests over inlined comparisons and calls
into `VariantRuntime`. `hash` is what `db.hash` emits (`HashLowering`), and
`compareOrder` the runtime's order. All three read the same payloads; the
runtime turns one into a literal of rdf4cpp where it needs XSD semantics, and
that library is a parameter here (`Rdf4cpp`).
-/
import Mathlib.Data.List.Lex
import Mathlib.Order.Fin.Basic
import GengoDB.Binary
import GengoDB.Codec

namespace GengoDB

/-! ## Tags -/

/-- `xsd::Type`. -/
inductive XsdType where
  | unspecified
  | string | boolean | decimal | float | double | duration | dateTime | time | date | gYearMonth | gYear
  | gMonthDay | gDay | gMonth | hexBinary | base64Binary | anyURI | qName | notation_
  | normalizedString | token | language | nmtoken | nmtokens | name | ncName | id | idref | idrefs | entity
  | entities
  | integer | nonPositiveInteger | negativeInteger | long | int | short | byte | nonNegativeInteger
  | unsignedLong | unsignedInt | unsignedShort | unsignedByte | positiveInteger
  | node | langString | anyIRI | anyLiteralNode | anyLiteralScalar | edge
  deriving DecidableEq, Repr, Inhabited

namespace XsdType

/-- `xsd::from_int32` of a tag: it does not know the resource tags. -/
def fromInt32 : XsdType → Option XsdType
  | node | anyIRI | edge => none
  | t => some t

/-- An entry of `fixedNumericTags`. -/
structure FixedNumericTag where
  type : XsdType
  bitWidth : Nat
  isFloat : Bool
  isUnsigned : Bool
  deriving DecidableEq

def fixedNumericTags : List FixedNumericTag :=
  [⟨byte, 8, false, false⟩, ⟨short, 16, false, false⟩, ⟨int, 32, false, false⟩, ⟨long, 64, false, false⟩,
   ⟨unsignedByte, 8, false, true⟩, ⟨unsignedShort, 16, false, true⟩, ⟨unsignedInt, 32, false, true⟩,
   ⟨unsignedLong, 64, false, true⟩, ⟨float, 32, true, false⟩, ⟨double, 64, true, false⟩]

/-! `computeTagPredicates`. -/

def isNumericFamily : XsdType → Bool
  | boolean | long | double | byte | short | int | unsignedByte | unsignedShort | unsignedInt | unsignedLong
  | float | date | dateTime => true
  | _ => false

def isScratchPayload (t : XsdType) : Bool :=
  t.isNumericFamily || t == node || t == edge || t == string || t == anyIRI

def isByteString (t : XsdType) : Bool := t == string || t == integer || t == decimal

/-- `classifyStorage`. -/
inductive StorageShape where
  | inline32 | int64 | uint64 | double | blob
  deriving DecidableEq, Repr

/-- `classifyStorage`, with the width in bytes. -/
def classifyStorage : XsdType → StorageShape × Nat
  | boolean | byte | unsignedByte => (.inline32, 1)
  | short | unsignedShort => (.inline32, 2)
  | int | unsignedInt | float => (.inline32, 4)
  | long | date | dateTime => (.int64, 8)
  | unsignedLong => (.uint64, 8)
  | double => (.double, 8)
  | _ => (.blob, 0)

end XsdType

/-! ## Predicates -/

/-- `VariantCmpPredicate`. -/
inductive CmpPredicate where
  | eq | neq | lt | lte | gt | gte
  deriving DecidableEq, Repr

namespace CmpPredicate

def reversePredicate : CmpPredicate → CmpPredicate
  | lt => gt
  | gt => lt
  | lte => gte
  | gte => lte
  | eq => eq
  | neq => neq

/-- What a predicate says of two things that stand in order `o`. -/
def holds : CmpPredicate → Ordering → Bool
  | eq, o => o.isEq
  | neq, o => o.isNe
  | lt, o => o.isLT
  | lte, o => o.isLE
  | gt, o => o.isGT
  | gte, o => o.isGE

end CmpPredicate

/-! ## rdf4cpp -/

/-- The bytes of a string; `std::string` orders them as unsigned. -/
abbrev Bytes := List (Fin 256)

def compareBytes (l r : Bytes) : Ordering := compareOfLessAndEq l r

/-- A datatype: `toDatatypeIri` of an XSD type, or an IRI of its own. -/
inductive Datatype where
  | xsd (t : XsdType)
  | iri (id : Bytes)
  deriving DecidableEq

/-- The literals of rdf4cpp and what the runtime asks of them. `none` is
`TriBool::Err`. `fromValue t v` is `make_typed_from_value` of the value of
type `t` whose bytes are the low bytes of `v`. -/
structure Rdf4cpp (Lit : Type*) where
  makeTyped : Bytes → Datatype → Lit
  makeLangTagged : Bytes → Bytes → Lit
  fromValue : XsdType → BitVec 64 → Lit
  null : Lit → Bool
  compare : CmpPredicate → Lit → Lit → Option Bool
  order : Lit → Lit → Ordering
  datatype : Lit → Bytes
  lexicalForm : Lit → Bytes
  castToDouble : Lit → Option (BitVec 64)

/-! ## Memory -/

/-- `RDFNodeType` of a node. -/
inductive NodeType where
  | iri | bnode | literal
  deriving DecidableEq, Repr

/-- What the runtime reaches through a `NodeEntry*`: the node's payload (a
property id, negative on a resource), the property it names (`prop`: its type
and value, the entries of the 64-bit columns and the blob the value may point
to, the name of its datatype node) and the node's metadata. A stored boolean
is a C++ `bool`. -/
structure NodeView where
  payload : Int
  propType : XsdType
  propValue : BitVec 32
  i64 : BitVec 64
  ui64 : BitVec 64
  dbl : BitVec 64
  lang : Bytes
  lex : Bytes
  datatypeName : Bytes
  uid : Int
  nodeName : Bytes
  nodeType : NodeType
  boolByte : propType = .boolean → (propValue.setWidth 8).toNat ≤ 1

/-- What the payloads point to. -/
structure Memory where
  node : BitVec 64 → NodeView
  varLen : BitVec 64 → Bytes

/-- A variant. The low byte of a boolean is 0 or 1; the bits above a value's
width are whatever they are. -/
structure Variant where
  tag : XsdType
  ref : BitVec 64
  boolByte : tag = .boolean → (ref.setWidth 8).toNat ≤ 1

namespace Variant

/-- `create_scalar` of an inline scalar: `packInline` zero-extends it. The
boolean scalar type is `i1`. -/
def createScalar (tag : XsdType) {w : Nat} (value : BitVec w) (h : tag = .boolean → w = 1) : Variant where
  tag := tag
  ref := value.setWidth 64
  boolByte ht := by
    obtain rfl := h ht
    have := value.isLt
    simp only [BitVec.toNat_setWidth]
    omega

/-- `create_scalar` of a string stored at `slot`. -/
def createText (tag : XsdType) (slot : BitVec 64) (h : tag ≠ .boolean) : Variant := ⟨tag, slot, fun ht => absurd ht h⟩

end Variant

variable (n : XsdType.FixedNumericTag)

section Runtime

variable {Lit : Type*} (R : Rdf4cpp Lit) (M : Memory)

/-! ## Literals of payloads -/

/-- The low `bytes` bytes of a payload, as `memcpy` reads them. -/
def lowBytes (bytes : Nat) (payload : BitVec 64) : BitVec 64 := (payload.setWidth (8 * bytes)).setWidth 64

/-- `getLiteralFromNumeric`: the value of the tag's width at the front of the
payload. -/
def getLiteralFromNumeric (payload : BitVec 64) (tag : XsdType) : Option Lit :=
  match tag.fromInt32 with
  | none => none
  | some t => if t.isNumericFamily then some (R.fromValue t (lowBytes t.classifyStorage.2 payload)) else none

/-- `<iri>` without its brackets. -/
def stripBrackets (name : Bytes) : Bytes :=
  if 2 ≤ name.length ∧ name.head? = some 60 ∧ name.getLast? = some 62 then (name.drop 1).dropLast else name

def reconstructBlobLiteral (ref : BitVec 64) : Option Lit :=
  let entry := M.node ref
  if entry.payload < 0 then none
  else
    match entry.propType.fromInt32 with
    | none => none
    | some t =>
      if entry.lang ≠ [] then some (R.makeLangTagged entry.lex entry.lang)
      else if t = .anyLiteralNode then some (R.makeTyped entry.lex (.iri (stripBrackets entry.datatypeName)))
      else some (R.makeTyped entry.lex (.xsd t))

/-- A little-endian number. -/
def littleEndian : Bytes → Nat
  | [] => 0
  | b :: bs => b.val + 256 * littleEndian bs

/-- `reconstructScalarLiteral`: length of the datatype IRI in four bytes, the
IRI, the lexical form. -/
def reconstructScalarLiteral (payload : BitVec 64) : Lit :=
  let raw := M.varLen payload
  let dtLen := littleEndian (raw.take 4)
  R.makeTyped ((raw.drop 4).drop dtLen) (.iri ((raw.drop 4).take dtLen))

def reconstructLiteral (payload : BitVec 64) (tag : XsdType) : Option Lit :=
  match tag.fromInt32 with
  | none | some .unspecified => none
  | some t =>
    if t.isByteString then some (R.makeTyped (M.varLen payload) (.xsd t))
    else if t = .anyLiteralScalar then some (reconstructScalarLiteral R M payload)
    else if t.classifyStorage.1 = .blob then reconstructBlobLiteral R M payload
    else getLiteralFromNumeric R payload tag

/-! ## Nodes as variants -/

def resolveRefTag (ref : BitVec 64) : XsdType :=
  if (M.node ref).payload < 0 then .node else (M.node ref).propType

/-- `memcpy` of the low bytes of a value over the low bytes of a buffer. -/
def writeLow (bytes : Nat) (value buffer : BitVec 64) : BitVec 64 :=
  (buffer >>> (8 * bytes)) <<< (8 * bytes) ||| lowBytes bytes value

/-- The 64-bit word or column entry a property's value is read from. -/
def NodeView.stored (entry : NodeView) : XsdType.StorageShape → BitVec 64
  | .inline32 => entry.propValue.setWidth 64
  | .int64 => entry.i64
  | .uint64 => entry.ui64
  | .double => entry.dbl
  | .blob => 0

/-- `extractNumericLiteral` into the eight bytes `scratch`. -/
def extractNumericLiteral (ref : BitVec 64) (tag : XsdType) (scratch : BitVec 64) : BitVec 64 :=
  match tag.classifyStorage with
  | (.blob, _) => scratch
  | (shape, width) => writeLow width ((M.node ref).stored shape) scratch

/-- What is written is what is read back, whatever the buffer held. -/
theorem lowBytes_writeLow (bytes : Nat) (value buffer : BitVec 64) :
    (writeLow bytes value buffer).setWidth (8 * bytes) = value.setWidth (8 * bytes) := by
  ext i hi
  by_cases h : i < 64
  · simp [writeLow, lowBytes, h, hi]
  · have := BitVec.getLsbD_of_ge value i (by omega)
    simp [writeLow, lowBytes, h, this]

/-- `CreateNodeRefOpLowering`. `scratch` is what the stack slot held before,
`slot` the address a string goes to. -/
def createNodeRef (ref scratch slot : BitVec 64) : Variant where
  tag := resolveRefTag M ref
  ref :=
    if (resolveRefTag M ref).isNumericFamily then extractNumericLiteral M ref (resolveRefTag M ref) scratch
    else if resolveRefTag M ref = .node then ref
    else if (resolveRefTag M ref).isByteString then slot
    else ref
  boolByte ht := by
    have htype : (M.node ref).propType = .boolean := by
      unfold resolveRefTag at ht
      split at ht
      · cases ht
      · exact ht
    have hb := (M.node ref).boolByte htype
    rw [ht]
    have hread := lowBytes_writeLow 1 ((M.node ref).stored .inline32) scratch
    simp only [XsdType.isNumericFamily, extractNumericLiteral, XsdType.classifyStorage, ↓reduceIte]
    rw [show 8 * 1 = 8 from rfl] at hread
    rw [hread]
    simpa [NodeView.stored] using hb

/-! ## Runtime comparisons -/

variable (p : CmpPredicate)

def compareNumericCross (lhs rhs : BitVec 64) (lhsTag rhsTag : XsdType) : Option Bool :=
  match getLiteralFromNumeric R lhs lhsTag, getLiteralFromNumeric R rhs rhsTag with
  | some l, some r => R.compare p l r
  | _, _ => none

def isCustomDatatypeTag (tag : XsdType) : Bool := tag == .anyLiteralNode || tag == .anyLiteralScalar

def termEq (l r : Lit) : Option Bool :=
  if R.null l || R.null r then none
  else some (R.datatype l = R.datatype r && R.lexicalForm l = R.lexicalForm r)

def compareBlobLiteral (lhs rhs : BitVec 64) (lhsTag rhsTag : XsdType) : Option Bool :=
  match reconstructLiteral R M lhs lhsTag, reconstructLiteral R M rhs rhsTag with
  | some l, some r =>
    if (p = .eq ∨ p = .neq) ∧ (isCustomDatatypeTag lhsTag || isCustomDatatypeTag rhsTag) then
      if p = .eq then termEq R l r else (termEq R l r).map not
    else R.compare p l r
  | _, _ => none

/-- `compareNodeRefRef`: by the global uid. -/
def compareNodeRefRef (lhs rhs : BitVec 64) : Bool :=
  p.holds (compare (M.node lhs).uid (M.node rhs).uid)

/-- `compareEdgeRefRef`: by the address. -/
def compareEdgeRefRef (lhs rhs : BitVec 64) : Bool := p.holds (compare lhs.toNat rhs.toNat)

/-- `compareIriNodeRef`: against a node that is no IRI only `eq` and `neq`
have an answer. -/
def compareIriNodeRef (iri : Bytes) (ref : BitVec 64) : Option Bool :=
  let entry := M.node ref
  if 0 ≤ entry.payload ∨ entry.nodeType ≠ .iri then
    match p with
    | .eq => some false
    | .neq => some true
    | _ => none
  else some (p.holds (compareBytes (60 :: (iri ++ [62])) entry.nodeName))

/-! ## `variant.cmp` -/

/-- `toCmpIPredicate`: signed. -/
def cmpISigned {w : Nat} (p : CmpPredicate) (l r : BitVec w) : Bool :=
  match p with
  | .eq => l == r
  | .neq => l != r
  | .lt => l.slt r
  | .lte => l.sle r
  | .gt => r.slt l
  | .gte => r.sle l

/-- `toCmpIPredicateUnsigned`. -/
def cmpIUnsigned {w : Nat} (p : CmpPredicate) (l r : BitVec w) : Bool :=
  match p with
  | .eq => l == r
  | .neq => l != r
  | .lt => l.ult r
  | .lte => l.ule r
  | .gt => r.ult l
  | .gte => r.ule l

/-- `toCmpFPredicate`: the ordered predicates, false on a NaN. -/
def cmpF (f : Binary.Format) {w : Nat} (p : CmpPredicate) (l r : BitVec w) : Bool :=
  match (f.decode l.toNat).compare (f.decode r.toNat) with
  | some o => p.holds o
  | none => false

/-- `fixedNumericMlirType` of a float: `f32` or `f64`. -/
def XsdType.FixedNumericTag.format : Binary.Format :=
  if n.bitWidth = 32 then Binary.binary32 else Binary.binary64

/-- The fast case of one entry of `fixedNumericTags`. -/
def XsdType.FixedNumericTag.cmp (p : CmpPredicate) (lhs rhs : BitVec 64) : Bool :=
  let l := lhs.setWidth n.bitWidth
  let r := rhs.setWidth n.bitWidth
  if n.isFloat then cmpF n.format p l r
  else if n.isUnsigned then cmpIUnsigned p l r
  else cmpISigned p l r

/-- `fastCases`: booleans as `i1` with the signed predicates, then the fixed
numeric tags. -/
def fastCase (tag : XsdType) (lhs rhs : BitVec 64) : Option Bool :=
  if tag = .boolean then some (cmpISigned p (lhs.setWidth 1) (rhs.setWidth 1))
  else (XsdType.fixedNumericTags.find? fun n => n.type = tag).map fun n => n.cmp p lhs rhs

/-- `applyStringCmp`. -/
def applyStringCmp (l r : Bytes) : Bool := p.holds (compareBytes l r)

def sameTagSlow (tag : XsdType) (lhs rhs : BitVec 64) : Option Bool :=
  if tag.isNumericFamily then compareNumericCross R p lhs rhs tag tag
  else if tag = .string then some (applyStringCmp p (M.varLen lhs) (M.varLen rhs))
  else if tag = .node then some (compareNodeRefRef M p lhs rhs)
  else if tag = .edge then some (compareEdgeRefRef p lhs rhs)
  else if tag = .anyIRI then some (applyStringCmp p (M.varLen lhs) (M.varLen rhs))
  else if tag = .unspecified then none
  else compareBlobLiteral R M p lhs rhs tag tag

def isResource (t : XsdType) : Bool := t == .anyIRI || t == .node

def isLiteral (t : XsdType) : Bool := !(t == .anyIRI || t == .node || (t == .edge || t == .unspecified))

/-- `crossTagCases`. -/
def crossTag (a b : Variant) : Option Bool :=
  if isResource a.tag && isLiteral b.tag || isLiteral a.tag && isResource b.tag then
    match p with
    | .eq => some false
    | .neq => some true
    | _ => none
  else if a.tag.isNumericFamily && b.tag.isNumericFamily then compareNumericCross R p a.ref b.ref a.tag b.tag
  else if a.tag == .integer || b.tag == .integer then compareBlobLiteral R M p a.ref b.ref a.tag b.tag
  else if a.tag == .anyIRI && b.tag == .node then compareIriNodeRef M p (M.varLen a.ref) b.ref
  else if a.tag == .node && b.tag == .anyIRI then compareIriNodeRef M p.reversePredicate (M.varLen b.ref) a.ref
  else if !a.tag.isScratchPayload && !b.tag.isScratchPayload then
    compareBlobLiteral R M p a.ref b.ref a.tag b.tag
  else none

/-- `CmpOpLowering`; `none` is the null boolean. -/
def cmp (a b : Variant) : Option Bool :=
  if a.tag = b.tag then
    match fastCase p a.tag a.ref b.ref with
    | some c => some c
    | none => sameTagSlow R M p a.tag a.ref b.ref
  else crossTag R M p a b

/-! ## `db.hash` -/

/-- `VariantRuntime::hashNumeric`. -/
def hashNumeric (payload : BitVec 64) (tag : XsdType) : BitVec 64 :=
  match tag.fromInt32 with
  | none => 0
  | some t =>
    if t = .date ∨ t = .dateTime then payload
    else
      match getLiteralFromNumeric R payload tag with
      | none => 0
      | some lit => (R.castToDouble lit).getD 0

def toStringBlobLiteral (ref : BitVec 64) : Option Bytes := (reconstructBlobLiteral R M ref).map R.lexicalForm

/-- `llvm.bswap`. -/
def byteSwap (x : BitVec 64) : BitVec 64 :=
  (x.setWidth 8 ++ (x >>> 8).setWidth 8 ++ (x >>> 16).setWidth 8 ++ (x >>> 24).setWidth 8 ++
    (x >>> 32).setWidth 8 ++ (x >>> 40).setWidth 8 ++ (x >>> 48).setWidth 8 ++ (x >>> 56).setWidth 8).setWidth 64

/-- `util.hash_64`. -/
def hash64 (x : BitVec 64) : BitVec 64 :=
  let m := 11400714819323198549#64 * x
  m ^^^ byteSwap m

/-- `util.hash_combine`. -/
def hashCombine (h₁ h₂ : BitVec 64) : BitVec 64 := h₁ ^^^ byteSwap h₂

def combineHashes (hash : BitVec 64) : Option (BitVec 64) → BitVec 64
  | none => hash
  | some total => hashCombine hash total

/-- The hash of a `VarLen32`: from its sixteen bytes up to length 12
(`VarLenTryCheapHash`), from `hashVarLenData` above. `none` is the invalid
string `emptyVarLen32`. -/
def hashVarLen (hashVarLenData : Bytes → BitVec 64) : Option Bytes → BitVec 64
  | none => hashCombine (hash64 0xffffffff00000000) (hash64 0)
  | some s =>
    if s.length < 13 then
      hashCombine (hash64 (BitVec.ofNat 64 (s.length + littleEndian (s.take 4) * 2 ^ 32)))
        (hash64 (BitVec.ofNat 64 (littleEndian (s.drop 4))))
    else hashVarLenData s

/-- The two functions the hash of a variant is made of: `hashInteger` of a word
and the hash of a string. -/
structure HashFunctions where
  integer : BitVec 64 → BitVec 64
  varLen : Option Bytes → BitVec 64

/-- `HashLowering::hashImpl` on a variant, over the hash of what came before. The
last branch takes the payload for a node. That of an IRI, an edge or a literal
of another datatype in the query is none: what is read then is undefined. -/
def hashImpl (F : HashFunctions) (total : Option (BitVec 64)) (v : Variant) : Option (BitVec 64) :=
  if v.tag.isNumericFamily then some (combineHashes (F.integer (hashNumeric R v.ref v.tag)) total)
  else if v.tag.isByteString then some (combineHashes (F.varLen (some (M.varLen v.ref))) total)
  else if v.tag = .node then some (combineHashes (F.integer (BitVec.ofInt 64 (M.node v.ref).uid)) total)
  else if v.tag = .unspecified then some (total.getD 0)
  else if v.tag = .anyIRI ∨ v.tag = .edge ∨ v.tag = .anyLiteralScalar then none
  else some (combineHashes (F.varLen (toStringBlobLiteral R M v.ref)) total)

/-- `db.hash` of a variant. -/
def hash (hashVarLenData : Bytes → BitVec 64) (total : Option (BitVec 64)) (v : Variant) : Option (BitVec 64) :=
  hashImpl R M ⟨hash64, hashVarLen hashVarLenData⟩ total v

/-! ## `variant.order` -/

/-- The rank of `compareOrder`: blank node, IRI, anything else. -/
def rankOf (v : Variant) : Nat :=
  if v.tag ≠ .node then 2 else if (M.node v.ref).nodeType = .bnode then 0 else 1

/-- `VariantRuntime::compareOrder`. Edges come last, by the signed payload;
then ranks; nodes of a rank by name; the rest by rdf4cpp's order. -/
def compareOrder (a b : Variant) : Int :=
  if a.tag = .edge ∨ b.tag = .edge then
    if ¬ (a.tag = .edge ↔ b.tag = .edge) then if a.tag = .edge then 1 else -1
    else if a.ref = b.ref then 0
    else if a.ref.slt b.ref then -1 else 1
  else if rankOf M a ≠ rankOf M b then if rankOf M a < rankOf M b then -1 else 1
  else if rankOf M a ≠ 2 then
    if (M.node a.ref).nodeName ≠ (M.node b.ref).nodeName then
      if (M.node a.ref).nodeName < (M.node b.ref).nodeName then -1 else 1
    else 0
  else
    match reconstructLiteral R M a.ref a.tag, reconstructLiteral R M b.ref b.tag with
    | some l, some r =>
      match R.order l r with
      | .lt => -1
      | .gt => 1
      | .eq => 0
    | _, _ => 0

end Runtime

/-! ## Numbers as literals -/

/-- The integer a word of a fixed-width integer tag stands for. -/
def XsdType.FixedNumericTag.intValue (x : BitVec 64) : Int :=
  if n.isUnsigned then (x.setWidth n.bitWidth).toNat else (x.setWidth n.bitWidth).toInt

/-- The value a word of a float tag stands for. -/
def XsdType.FixedNumericTag.floatValue (x : BitVec 64) : Binary.Value :=
  n.format.decode (x.setWidth n.bitWidth).toNat

/-- The units of one in a binary value. -/
def Binary.one : Int := 2 ^ 1074

/-- The word of the double nearest to an integer below `2^53`. -/
def doubleOf (x : Int) : BitVec 64 :=
  let m := x.natAbs
  let word := if m = 0 then 0 else (m.log2 + 1022) * 2 ^ 52 + m * 2 ^ (52 - m.log2)
  BitVec.ofNat 64 (if x < 0 then 2 ^ 63 + word else word)

/-- A literal by its value, with the double it casts to. -/
structure ExactLiteral where
  value : Binary.Value
  double : BitVec 64
  lex : Bytes

def ExactLiteral.ofInt (x : Int) (lex : Bytes) : ExactLiteral := ⟨.fin (Binary.one * x), doubleOf x, lex⟩

/-- A number in decimal digits. -/
def digits (s : Bytes) : Nat := s.foldl (fun n c => 10 * n + (c.val - 48)) 0

def ExactLiteral.fromValue (t : XsdType) (v : BitVec 64) : ExactLiteral :=
  match XsdType.fixedNumericTags.find? fun n => n.type = t with
  | none => .ofInt v.toNat []
  | some n =>
    if n.isFloat then
      ⟨n.floatValue v, if n.bitWidth = 32 then BitVec.ofNat 64 (Binary.widen (v.setWidth 32).toNat) else v, []⟩
    else .ofInt (n.intValue v) []

/-- A library of literals that are exact numbers: an instance of `Rdf4cpp`
that compares everything by value. -/
def exactLits : Rdf4cpp ExactLiteral where
  makeTyped lex _ := .ofInt (digits lex) lex
  makeLangTagged lex _ := .ofInt 0 lex
  fromValue := .fromValue
  null _ := false
  compare p l r := (l.value.compare r.value).map p.holds
  order := compareLex (compareOn fun l => (l.value.place.getD (2, 0)).1)
    (compareOn fun l => (l.value.place.getD (2, 0)).2)
  datatype _ := []
  lexicalForm l := l.lex
  castToDouble l := some l.double

theorem boolByte_unspecified (h : XsdType.unspecified = .boolean) : ((0 : BitVec 32).setWidth 8).toNat ≤ 1 := nomatch h

/-- A memory whose nodes are resources and whose strings are all one. -/
def bareMemory (text : Bytes) : Memory where
  node _ := ⟨-1, .unspecified, 0, 0, 0, 0, [], [], [], 0, [], .iri, boolByte_unspecified⟩
  varLen _ := text

end GengoDB
