/-
The serializer of the catalog (`utility/Serialization.h`, `.cpp`): values of
an open family of types, written without type information between markers and
property numbers, and read back by the type asked for.

A `Ty` is what the templates are instantiated with; a class is named, and
its properties are numbered and typed, so that classes may contain one another.
`Value` is a value of any type; `HasType` says of which, and that its lengths
fit a `size_t`. An unordered map has its entries in the order they are iterated
over, which is any; what keys are equal is up to the map's type.

Readers are cut off by fuel, because classes may be recursive. A pointer is
read to the same bytes whether `deserialize` of its class returns an object or
a pointer.
-/
import Mathlib.Algebra.Ring.Int.Defs
import GengoDB.Wire

namespace GengoDB.Serialization

open Codec (Byte putLE)
open Wire (Reader)

/-! ## Types and values -/

abbrev Marker := BitVec 16

def present : Marker := 0xFFFC
def notPresent : Marker := 0xFFFD
def objectStart : Marker := 0xFFFE
def objectEnd : Marker := 0xFFFF

/-- The types that are written as they are in memory, enumerations by their
underlying type. -/
inductive Scalar where
  | uint8 | uint16 | int | float | double | size | int64 | enum8 | enum16
  deriving DecidableEq

/-- The `sizeof`. -/
def Scalar.size_of : Scalar → ℕ
  | .uint8 | .enum8 => 1
  | .uint16 | .enum16 => 2
  | .int | .float => 4
  | .double | .size | .int64 => 8

/-- A class, by name. -/
abbrev ClassId := ℕ

inductive Ty where
  | bool
  | scalar (k : Scalar)
  | string
  | optional (t : Ty)
  | vector (t : Ty)
  | pair (a b : Ty)
  | unorderedMap (key value : Ty)
  | uniquePtr (c : ClassId)
  | sharedPtr (c : ClassId)
  | object (c : ClassId)
  deriving DecidableEq

/-- The properties that `serialize` and `deserialize` of a class go through. -/
abbrev Classes := ClassId → List (Marker × Ty)

inductive Value where
  | bool (b : Bool)
  | scalar (k : Scalar) (bits : BitVec (8 * k.size_of))
  | string (bytes : List Byte)
  | empty
  | holding (v : Value)
  | vector (vs : List Value)
  | pair (a b : Value)
  | unorderedMap (entries : List Value)
  | object (c : ClassId) (fields : List Value)

/-- The key of an entry of a map. -/
def Value.first : Value → Value
  | .pair a _ => a
  | v => v

/-- `key_equal` of the maps with a type of keys. -/
abbrev KeyEqual := Ty → Value → Value → Bool

/-- A value of a type. -/
inductive HasType (classes : Classes) (keyEqual : KeyEqual) : Value → Ty → Prop
  | bool (b : Bool) : HasType classes keyEqual (.bool b) .bool
  | scalar (k : Scalar) (bits : BitVec (8 * k.size_of)) : HasType classes keyEqual (.scalar k bits) (.scalar k)
  | string {bytes : List Byte} : bytes.length < 2 ^ 64 → HasType classes keyEqual (.string bytes) .string
  | nullopt (t : Ty) : HasType classes keyEqual .empty (.optional t)
  | some {t : Ty} {v : Value} : HasType classes keyEqual v t → HasType classes keyEqual (.holding v) (.optional t)
  | vector {t : Ty} {vs : List Value} : vs.length < 2 ^ 64 → (∀ v ∈ vs, HasType classes keyEqual v t) →
    HasType classes keyEqual (.vector vs) (.vector t)
  | pair {s t : Ty} {a b : Value} : HasType classes keyEqual a s → HasType classes keyEqual b t →
    HasType classes keyEqual (.pair a b) (.pair s t)
  | unorderedMap {key value : Ty} {entries : List Value} : entries.length < 2 ^ 64 →
    (∀ e ∈ entries, HasType classes keyEqual e (.pair key value)) →
    entries.Pairwise (fun e e' => keyEqual key e.first e'.first = false) →
    HasType classes keyEqual (.unorderedMap entries) (.unorderedMap key value)
  | nullUnique (c : ClassId) : HasType classes keyEqual .empty (.uniquePtr c)
  | uniquePtr {c : ClassId} {v : Value} : HasType classes keyEqual v (.object c) →
    HasType classes keyEqual (.holding v) (.uniquePtr c)
  | nullShared (c : ClassId) : HasType classes keyEqual .empty (.sharedPtr c)
  | sharedPtr {c : ClassId} {v : Value} : HasType classes keyEqual v (.object c) →
    HasType classes keyEqual (.holding v) (.sharedPtr c)
  | object {c : ClassId} {fields : List Value} : fields.length = (classes c).length →
    (∀ x ∈ fields.zip (classes c), HasType classes keyEqual x.1 x.2.2) →
    HasType classes keyEqual (.object c fields) (.object c)

/-! ## Writing -/

section

variable (classes : Classes)

def putMarker (m : Marker) : List Byte := putLE 2 m.toNat

def putSize (n : ℕ) : List Byte := putLE 8 n

mutual

/-- `Serializer::writeValue`. -/
def writeValue : Value → List Byte
  | .bool b => putLE 1 b.toNat
  | .scalar k bits => putLE k.size_of bits.toNat
  | .string bytes => putSize bytes.length ++ bytes
  | .empty => putMarker notPresent
  | .holding v => putMarker present ++ writeValue v
  | .vector vs => putSize vs.length ++ writeValues vs
  | .pair a b => writeValue a ++ writeValue b
  | .unorderedMap entries => putSize entries.length ++ writeValues entries
  | .object c fields => putMarker objectStart ++ writeProperties (classes c) fields ++ putMarker objectEnd

def writeValues : List Value → List Byte
  | [] => []
  | v :: vs => writeValue v ++ writeValues vs

/-- `serialize` of a class: `writeProperty` for each property. -/
def writeProperties : List (Marker × Ty) → List Value → List Byte
  | _, [] => []
  | [], _ :: _ => []
  | p :: ps, v :: vs => putMarker p.1 ++ writeValue v ++ putMarker p.1 ++ writeProperties ps vs

end

def writeProperty (propertyId : Marker) (v : Value) : List Byte :=
  putMarker propertyId ++ writeValue classes v ++ putMarker propertyId

end

/-! ## Reading -/

inductive Failure where
  /-- The message of the exception. -/
  | thrown (message : String)
  | fuel
  deriving DecidableEq

/-- What `SimpleByteReader::read` throws. -/
def pastEnd : Failure := .thrown "Read past end of buffer"

def readMarker : Reader Failure ℕ := Wire.word pastEnd 2

def readSize : Reader Failure ℕ := Wire.word pastEnd 8

/-- Read a marker that has to be the given one. -/
def expect (m : Marker) (message : String) : Reader Failure Unit := do
  let read ← readMarker
  if read ≠ m.toNat then throw (.thrown message) else pure ()

def startObject : Reader Failure Unit := expect objectStart "Expected object start marker"
def endObject : Reader Failure Unit := expect objectEnd "Expected object end marker"
def startProperty (propertyId : Marker) : Reader Failure Unit := expect propertyId "Expected property start marker"
def endProperty (propertyId : Marker) : Reader Failure Unit := expect propertyId "Expected property end marker"

section

variable (classes : Classes) (keyEqual : KeyEqual)

/-- `unordered_map::insert`. -/
def insertEntry (key : Ty) (entries : List Value) (e : Value) : List Value :=
  if entries.any fun e' => keyEqual key e'.first e.first then entries else entries ++ [e]

/-- What stands behind a marker. Anything but `notPresent` is taken for
`present`. -/
def readHeld (r : Reader Failure Value) : Reader Failure Value := do
  let marker ← readMarker
  if marker = notPresent.toNat then return .empty
  else
    let v ← r
    return .holding v

/-- `readProperty`, for a way to read its type. -/
def readNumbered (r : Reader Failure Value) (propertyId : Marker) : Reader Failure Value := do
  startProperty propertyId
  let v ← r
  endProperty propertyId
  return v

/-- `Deserializer::read`. -/
def read : ℕ → Ty → Reader Failure Value
  | 0, _ => throw .fuel
  | fuel + 1, t =>
    match t with
    | .bool => do
      let b ← Wire.word pastEnd 1
      return .bool (b ≠ 0)
    | .scalar k => do
      let x ← Wire.word pastEnd k.size_of
      return .scalar k (BitVec.ofNat _ x)
    | .string => do
      let length ← readSize
      let bytes ← Wire.take pastEnd length
      return .string bytes
    | .optional t => readHeld (read fuel t)
    | .vector t => do
      let length ← readSize
      let vs ← Codec.foldN (read fuel t) (fun vs v => vs ++ [v]) length []
      return .vector vs
    | .pair s t => do
      let a ← read fuel s
      let b ← read fuel t
      return .pair a b
    | .unorderedMap key value => do
      let length ← readSize
      let entries ← Codec.foldN (read fuel (.pair key value)) (insertEntry keyEqual key) length []
      return .unorderedMap entries
    | .uniquePtr c => readHeld (read fuel (.object c))
    | .sharedPtr c => readHeld (read fuel (.object c))
    | .object c => do
      startObject
      let fields ← Codec.fields (fun p => readNumbered (read fuel p.2) p.1) (classes c)
      endObject
      return .object c fields

def readProperty (fuel : ℕ) (t : Ty) (propertyId : Marker) : Reader Failure Value :=
  readNumbered (read classes keyEqual fuel t) propertyId

end

/-! ## Hexadecimal strings -/

def hexDigits : List Char := ['0', '1', '2', '3', '4', '5', '6', '7', '8', '9', 'A', 'B', 'C', 'D', 'E', 'F']

def toHex (b : Byte) : List Char := [hexDigits.getD (b.val >>> 4) '0', hexDigits.getD (b.val &&& 0xF) '0']

def isSpace (c : Char) : Bool := c.toNat = 32 || (9 ≤ c.toNat && c.toNat ≤ 13)

def hexValue (c : Char) : Option ℕ :=
  if '0' ≤ c ∧ c ≤ '9' then some (c.toNat - 48)
  else if 'A' ≤ c ∧ c ≤ 'F' then some (c.toNat - 55)
  else if 'a' ≤ c ∧ c ≤ 'f' then some (c.toNat - 87)
  else none

/-- The sign of a number, and what follows it. -/
def signOf : List Char → Bool × List Char
  | '-' :: s => (true, s)
  | '+' :: s => (false, s)
  | s => (false, s)

/-- Leave out the `0x` before digits. -/
def dropRadix : List Char → List Char
  | '0' :: x :: d :: s => if (x = 'x' ∨ x = 'X') ∧ (hexValue d).isSome then d :: s else '0' :: x :: d :: s
  | s => s

/-- `std::stoi` to the base 16. -/
def stoi (s : List Char) : Except Failure ℤ :=
  let (negative, s) := signOf (s.dropWhile isSpace)
  let digits := ((dropRadix s).takeWhile fun c => (hexValue c).isSome).filterMap hexValue
  if digits.isEmpty then .error (.thrown "stoi")
  else
    let n : ℕ := digits.foldl (fun n d => 16 * n + d) 0
    let i : ℤ := if negative then -n else n
    if i < -2 ^ 31 ∨ 2 ^ 31 ≤ i then .error (.thrown "stoi") else .ok i

/-- `static_cast` to a byte. -/
def toByte (i : ℤ) : Byte := Fin.ofNat 256 (i % 256).toNat

/-- The bytes of a string, two characters each. -/
def hexBytes : List Char → Except Failure (List Byte)
  | [] => .ok []
  | [c] => do
    let i ← stoi [c]
    return [toByte i]
  | c :: d :: s => do
    let i ← stoi [c, d]
    let bytes ← hexBytes s
    return toByte i :: bytes

section

variable (classes : Classes) (keyEqual : KeyEqual)

def serializeToHexString (v : Value) : List Char := (writeProperty classes 0 v).flatMap toHex

def deserializeFromHexString (fuel : ℕ) (t : Ty) (hexString : List Char) : Except Failure Value := do
  let bytes ← hexBytes hexString
  let (v, _) ← (readProperty classes keyEqual fuel t 0).run bytes
  return v

end

end GengoDB.Serialization
