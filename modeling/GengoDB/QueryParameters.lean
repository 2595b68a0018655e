/-
The parameters of a cached query (`QueryCache.cpp`, `relalg-parameterize`,
`std-query-canonicalize`).

Every constant of a selection whose type `isCacheableQueryParamType` accepts,
and every identifier of a graph pattern, gets a number. Their values are
written to a buffer, sixteen bytes for each, and the compiled code loads them
from there in place of the constant that `ConstantLowering` makes of them.

The buffer is a list of bytes. `mlir::cast` of an attribute of another kind, an
assertion, an exception and a load whose result is undefined are `none`.
-/
import GengoDB.ColumnHash

namespace GengoDB.QueryParams

open Codec (putLE)

/-! ## Constants -/

inductive FloatType where
  | f32 | f64
  deriving DecidableEq

/-- The types that matter here; `other` are dates, decimals, chars, indices. -/
inductive ConstType where
  | integer (w : ℕ)
  | float (type : FloatType)
  | string
  | other (name : String)
  deriving DecidableEq

/-- The attribute that holds the value of a constant. -/
inductive ValueAttr where
  | integer (w : ℕ) (v : BitVec w)
  | float (type : FloatType) (double : BitVec 64)
  | string (s : Bytes)
  deriving DecidableEq

/-- An `arith.constant` has the type of its attribute. A `db.constant` has a
type of its own, since a cast of a constant only changes the type
(`castValueToThisType`). -/
inductive ConstOp where
  | arith (value : ValueAttr)
  | db (type : ConstType) (value : ValueAttr)
  deriving DecidableEq

/-- `QueryParamLiteral`. -/
structure QueryParamLiteral where
  value : ValueAttr
  type : ConstType
  deriving DecidableEq

def ValueAttr.type : ValueAttr → ConstType
  | integer w _ => .integer w
  | float type _ => .float type
  | string _ => .string

def ConstOp.literal : ConstOp → QueryParamLiteral
  | arith value => ⟨value, value.type⟩
  | db type value => ⟨value, type⟩

def isCacheableQueryParamType : ConstType → Bool
  | .other _ => false
  | _ => true

/-- A value of the compiled code; a string is its 128 bits. -/
inductive Value where
  | integer (w : ℕ) (v : BitVec w)
  | f32 (bits : BitVec 32)
  | f64 (bits : BitVec 64)
  | varLen32 (bits : BitVec 128)
  deriving DecidableEq

/-- Conversions of the C++ library, and the constants of the types that are
never parameters. -/
structure Library where
  stoll : Bytes → Option ℤ
  stod : Bytes → Option (BitVec 64)
  toString : ℤ → Bytes
  doubleToInt : BitVec 64 → ℤ
  intToDouble : ℤ → BitVec 64
  doubleToFloat : BitVec 64 → BitVec 32
  other : String → ValueAttr → Option Value

/-! ## The constant of the uncached code -/

/-- What `parse` is given. -/
inductive ParseArg where
  | int (x : ℤ)
  | double (d : BitVec 64)
  | string (s : Bytes)

def InInt64 (x : ℤ) : Prop := -2 ^ 63 ≤ x ∧ x < 2 ^ 63

instance decidable_inInt64 (x : ℤ) : Decidable (InInt64 x) := inferInstanceAs (Decidable (_ ∧ _))

/-- `IntegerAttr::getInt` asserts that the value fits in 64 bits. -/
def ValueAttr.parseArg : ValueAttr → Option ParseArg
  | integer _ v => if InInt64 v.toInt then some (.int v.toInt) else none
  | float _ d => some (.double d)
  | string s => some (.string s)

def parseBool : ParseArg → Option ℤ
  | .int x => some (if x ≠ 0 then 1 else 0)
  | .double _ => none
  | .string s =>
    -- `true` or `t`, `false` or `f`
    if s = [116, 114, 117, 101] ∨ s = [116] then some 1
    else if s = [102, 97, 108, 115, 101] ∨ s = [102] then some 0
    else none

section
variable (L : Library)

def parseInt : ParseArg → Option ℤ
  | .int x => some x
  | .double d => some (L.doubleToInt d)
  | .string s => L.stoll s

def parseDouble : ParseArg → Option (BitVec 64)
  | .int x => some (L.intToDouble x)
  | .double d => some d
  | .string s => L.stod s

/-- `parseString`, which accepts integers here. -/
def parseString : ParseArg → Option Bytes
  | .int x => some (L.toString x)
  | .double _ => none
  | .string s => some s

/-- `parse` at the integer types that `convertTypeToArrow` knows. -/
def parseInteger (w : ℕ) (arg : ParseArg) : Option ℤ :=
  if w = 1 then parseBool arg else if w ∈ [8, 16, 32, 64] then parseInt L arg else none

def floatValue (type : FloatType) (d : BitVec 64) : Value :=
  match type with
  | .f32 => .f32 (L.doubleToFloat d)
  | .f64 => .f64 d

/-- `ConstantLowering`; a long string is a global at `address`. -/
def constantLowering (address : ℕ) (type : ConstType) (value : ValueAttr) : Option Value :=
  match type with
  | .integer w => do
    let x ← parseInteger L w (← value.parseArg)
    return .integer w (BitVec.ofInt w x)
  | .float type => do
    let d ← parseDouble L (← value.parseArg)
    return floatValue L type d
  | .string => do
    let s ← parseString L (← value.parseArg)
    return .varLen32 (Hash.createConstVarLen s address)
  | .other name => L.other name value

/-- The constant in the code that is compiled without the cache. -/
def constant (address : ℕ) : ConstOp → Option Value
  | .arith (.integer w v) => some (.integer w v)
  | .arith (.float type d) => some (floatValue L type d)
  | .arith (.string _) => none
  | .db type value => constantLowering L address type value

end

/-! ## The parameters of a module -/

inductive Term where
  | identifier (iri : Bytes)
  | var (name : String)
  deriving DecidableEq

def Term.isIdentifier : Term → Bool
  | identifier _ => true
  | var _ => false

/-- The operators with parameters: a selection with the constants of its region
in walk order, or a triple pattern with its three terms or an expansion with
its anchor. -/
inductive Parameterizable where
  | selection (constants : List ConstOp)
  | graph (name : String) (terms : List Term)
  deriving DecidableEq

/-- The operators with parameters, in walk order. -/
abbrev Module := List Parameterizable

def Parameterizable.getParamLiterals : Parameterizable → List QueryParamLiteral
  | selection constants => (constants.map ConstOp.literal).filter fun l => isCacheableQueryParamType l.type
  | graph _ terms => terms.filterMap fun
    | .identifier iri => some ⟨.string iri, .string⟩
    | .var _ => none

/-- An operator and the numbers of its parameters. -/
structure MarkedOp where
  op : Parameterizable
  params : List ℕ
  deriving DecidableEq

/-- `ParameterizeQuery`, from `nextId` on. -/
def parameterizeFrom (nextId : ℕ) : Module → List MarkedOp
  | [] => []
  | op :: ops =>
    let n := op.getParamLiterals.length
    ⟨op, List.range' nextId n⟩ :: parameterizeFrom (nextId + n) ops

def parameterize (m : Module) : List MarkedOp := parameterizeFrom 0 m

/-- The attribute `kQueryParamCountAttrName`. -/
def paramCount (m : Module) : ℕ := (m.map fun op => op.getParamLiterals.length).sum

/-- `paramIdForSlot`: the identifiers have the numbers in order. -/
def paramIdForSlot (terms : List Term) (params : List ℕ) (slot : ℕ) : Option ℕ := do
  let t ← terms[slot]?
  if t.isIdentifier then params[(terms.take slot).countP Term.isIdentifier]? else none

/-! ## The parameter buffer -/

/-- `kQueryParamSlotBytes`. -/
def slotBytes : ℕ := 16

/-- `std::memcpy` into a buffer, within its bounds. -/
def memcpy (buffer : Bytes) (offset : ℕ) (src : Bytes) : Option Bytes :=
  if offset + src.length ≤ buffer.length then some (buffer.take offset ++ src ++ buffer.drop (offset + src.length))
  else none

def writeI32 (buffer : Bytes) (id : ℕ) (value : BitVec 32) : Option Bytes :=
  memcpy buffer (id * slotBytes) (putLE 4 value.toNat)

/-- `writeVarLen32`, with a long text copied to `storage`. -/
def writeVarLen32 (buffer : Bytes) (id : ℕ) (str : Bytes) (storage : ℕ) : Option Bytes :=
  memcpy buffer (id * slotBytes) (putLE 16 (Hash.writeVarLen32 str storage).toNat)

/-- `writeLiteral`: of an integer at most eight bytes of `sextOrTrunc(64)`. -/
def writeLiteral (L : Library) (buffer : Bytes) (id : ℕ) (literal : QueryParamLiteral) (storage : ℕ) : Option Bytes :=
  match literal.type, literal.value with
  | .integer w, .integer _ v =>
    memcpy buffer (id * slotBytes) (putLE (min ((w + 7) / 8) 8) (v.toInt % 2 ^ 64).toNat)
  | .float .f32, .float _ d => memcpy buffer (id * slotBytes) (putLE 4 (L.doubleToFloat d).toNat)
  | .float .f64, .float _ d => memcpy buffer (id * slotBytes) (putLE 8 d.toNat)
  | .string, .string s => writeVarLen32 buffer id s storage
  | _, _ => none

/-- What the buffer is built with: `NamedGraphManager::resolve`, and the address
`allocLiteral` returns for a parameter. -/
structure Context where
  library : Library
  resolve : String → Bytes → BitVec 32
  allocLiteral : ℕ → ℕ

namespace Context

variable (C : Context)

/-- What the walk of `buildQueryParamBuffer` does at an operator. -/
def writeParams (buffer : Bytes) (o : MarkedOp) : Option Bytes :=
  match o.op with
  | .selection _ =>
    let write buffer (entry : QueryParamLiteral × ℕ) :=
      writeLiteral C.library buffer entry.2 entry.1 (C.allocLiteral entry.2)
    (o.op.getParamLiterals.zip o.params).foldlM write buffer
  | .graph name terms =>
    let write buffer (entry : Term × ℕ) :=
      match entry.1, paramIdForSlot terms o.params entry.2 with
      | .identifier iri, some id => writeI32 buffer id (C.resolve name iri)
      | _, _ => some buffer
    terms.zipIdx.foldlM write buffer

def buildQueryParamBuffer (m : Module) : Option Bytes :=
  (parameterize m).foldlM C.writeParams (List.replicate (paramCount m * slotBytes) 0)

end Context

/-! ## The load of the cached code -/

/-- The bytes of a load, within the bounds of the buffer. -/
def readBytes (buffer : Bytes) (offset len : ℕ) : Option Bytes :=
  if offset + len ≤ buffer.length then some ((buffer.drop offset).take len) else none

/-- `util.load` from the slot `id` as the type of the leaf. An integer that is
no whole number of bytes has to be in memory as a store of its type leaves it,
which clears the other bits; anything else is undefined. -/
def loadSlot (buffer : Bytes) (id : ℕ) (type : ConstType) : Option Value := do
  match type with
  | .integer w =>
    let n := littleEndian (← readBytes buffer (id * slotBytes) ((w + 7) / 8))
    if n < 2 ^ w then return .integer w (BitVec.ofNat w n) else none
  | .float .f32 => return .f32 (BitVec.ofNat 32 (littleEndian (← readBytes buffer (id * slotBytes) 4)))
  | .float .f64 => return .f64 (BitVec.ofNat 64 (littleEndian (← readBytes buffer (id * slotBytes) 8)))
  | .string => return .varLen32 (BitVec.ofNat 128 (littleEndian (← readBytes buffer (id * slotBytes) 16)))
  | .other _ => none

end GengoDB.QueryParams
