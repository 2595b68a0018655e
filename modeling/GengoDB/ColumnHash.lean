/-
The two hashes of a key.

A hash index hashes Arrow columns (`Hash.cpp`): the hashes of all rows start at
zero and every column is folded in. Compiled code hashes the values of a tuple
(`HashLowering`): the first hash stands alone, the next ones are combined with
it. A value comes from an Arrow column (`LoadArrowOpLowering`) or, for a
string, also from a constant.

A string is kept in sixteen bytes: its length and, up to length twelve, its
bytes. They are read from memory in words that can reach past either end of
the string; what is there is part of the model. Arithmetic on nanoseconds
wraps around, and the hash of long strings (`xxHash64`) is a parameter.
-/
import GengoDB.Variant
import Mathlib.Data.List.Forall2

namespace GengoDB.Hash

open BitVec

open Codec (putLE)

/-! ## Strings -/

/-- A string in memory. -/
structure Text where
  mem : ℕ → Fin 256
  ptr : ℕ
  len : ℕ
  ptr_lt : ptr < 2 ^ 64
  len_lt : len < 2 ^ 32

section
variable (mem : ℕ → Fin 256)

def readBytes (ptr len : ℕ) : Bytes := (List.range len).map fun i => mem (ptr + i)

def Text.bytes (t : Text) : Bytes := readBytes t.mem t.ptr t.len

def unalignedLoad32 (p : ℕ) : BitVec 32 := BitVec.ofNat 32 (littleEndian (readBytes mem p 4))

def unalignedLoad64 (p : ℕ) : BitVec 64 := BitVec.ofNat 64 (littleEndian (readBytes mem p 8))

def cachelineRemains8 (p : ℕ) : Bool := p % 64 ≤ 56

def read8PadZero (p len : ℕ) : BitVec 64 :=
  if len = 0 then 0
  else if 8 ≤ len then unalignedLoad64 mem p
  else if cachelineRemains8 p then
    let shift := len * 8
    let mask := ~~~(allOnes 64 <<< shift)
    unalignedLoad64 mem p &&& mask
  else unalignedLoad64 mem (p + len - 8) >>> (64 - len * 8)

end

structure VarLen32 where
  len : BitVec 32
  first4 : BitVec 32
  last8 : BitVec 64

namespace VarLen32

/-- The fields in memory order. -/
def asI128 (v : VarLen32) : BitVec 128 := v.last8 ++ v.first4 ++ v.len

/-- `VarLen32()`. -/
def invalid : VarLen32 := ⟨0, 0xffffffff, 0⟩

/-- `VarLen32(ptr, len)`, also what `util.create_varlen` calls. -/
def ofPtr (mem : ℕ → Fin 256) (ptr len : ℕ) : VarLen32 :=
  if 12 < len then ⟨BitVec.ofNat 32 len, unalignedLoad32 mem ptr, BitVec.ofNat 64 ptr⟩
  else if 8 < len then
    let duplicate := 12 - len
    ⟨BitVec.ofNat 32 len, unalignedLoad32 mem ptr, unalignedLoad64 mem (ptr + len - 8) >>> (duplicate * 8)⟩
  else
    let bytes := read8PadZero mem ptr len
    ⟨BitVec.ofNat 32 len, bytes.setWidth 32, bytes >>> 32⟩

/-- The bytes of a long string. -/
def data (mem : ℕ → Fin 256) (v : VarLen32) : Bytes := readBytes mem v.last8.toNat v.len.toNat

end VarLen32

/-- `CreateConstVarLenLowering`: the 128 bits of a constant, a global at
`address` if it is long. -/
def createConstVarLen (str : Bytes) (address : ℕ) : BitVec 128 :=
  let len := str.length
  let first4 := BitVec.ofNat 64 (littleEndian (str.take 4))
  let c1 := first4 <<< 32 ||| BitVec.ofNat 64 len
  let p2 := if len ≤ 12 then BitVec.ofNat 64 (if 4 < len then littleEndian ((str.drop 4).take 8) else 0)
    else BitVec.ofNat 64 address
  c1.setWidth 128 ||| p2.setWidth 128 <<< 64

/-- `writeVarLen32`: the slot of a text, with its length narrowed to 32 bits. -/
def writeVarLen32 (str : Bytes) (storage : ℕ) : BitVec 128 :=
  let len := str.length
  let first4 := BitVec.ofNat 64 (littleEndian (str.take 4))
  let low := first4 <<< 32 ||| (BitVec.ofNat 32 len).setWidth 64
  let high := if len ≤ 12 then BitVec.ofNat 64 (if 4 < len then littleEndian ((str.drop 4).take 8) else 0)
    else BitVec.ofNat 64 storage
  low.setWidth 128 ||| high.setWidth 128 <<< 64

/-- 128 bits taken apart as the fields of a string. -/
def VarLen32.ofI128 (raw : BitVec 128) : VarLen32 :=
  ⟨raw.setWidth 32, (raw >>> 32).setWidth 32, (raw >>> 64).setWidth 64⟩

namespace VarLen32

/-- `str()`: the bytes of the value itself, or those it points to. -/
def str (mem : ℕ → Fin 256) (v : VarLen32) : Bytes :=
  if v.len.toNat ≤ 12 then putLE v.len.toNat (v.asI128.toNat / 2 ^ 32) else v.data mem

/-- `StringRuntime::compareEq`, which asserts that the lengths are equal. -/
def compareEq (mem : ℕ → Fin 256) (str1 str2 : VarLen32) : Option Bool :=
  if str1.len = str2.len then some (str1.str mem == str2.str mem) else none

end VarLen32

/-- `VarLenCmpLowering`: whether the strings are equal, and whether that needs a
detailed comparison. -/
def varLenCmp (left right : BitVec 128) : Bool × Bool :=
  let first64Eq := left.setWidth 64 == right.setWidth 64
  let last64Eq := (left >>> 64).setWidth 64 == (right >>> 64).setWidth 64
  let len := left.setWidth 64 &&& 0xffffffff
  (last64Eq && first64Eq, decide (12#64 < len) && first64Eq)

/-- `StringCmpOpLowering` of an equality; `small` if a side is a constant of at
most twelve bytes. -/
def stringEq (small : Bool) (mem : ℕ → Fin 256) (left right : VarLen32) : Option Bool :=
  if small then some (left.asI128 == right.asI128)
  else if (varLenCmp left.asI128 right.asI128).2 then left.compareEq mem right
  else some (varLenCmp left.asI128 right.asI128).1

/-! ## The hash index -/

section Runtime

variable (xxHash64 : Bytes → BitVec 64)

def dbHashFoldPiece (acc piece : BitVec 64) : BitVec 64 := byteSwap acc ^^^ piece

def hashVarLenData (mem : ℕ → Fin 256) (v : VarLen32) : BitVec 64 := xxHash64 (v.data mem)

def dbHashVarLen32 (mem : ℕ → Fin 256) (v : VarLen32) : BitVec 64 :=
  let first64 := v.asI128.setWidth 64
  let last64 := (v.asI128 >>> 64).setWidth 64
  let len := (first64 &&& 0xffffffff).setWidth 32
  if 12#32 < len then hashVarLenData xxHash64 mem v else hash64 first64 ^^^ byteSwap (hash64 last64)

inductive IntWidth
  | w8 | w16 | w32 | w64
  deriving DecidableEq, Repr

def IntWidth.bits : IntWidth → ℕ
  | w8 => 8
  | w16 => 16
  | w32 => 32
  | w64 => 64

inductive TimeUnit
  | second | milli | micro | nano
  deriving DecidableEq, Repr

/-- The types of `hashColumnPieceBatchRuntime`. `fixedSizeBinary` has four
bytes: it is `char(1)`. Floating-point numbers are their bits. -/
inductive ArrowType
  | bool
  | int (width : IntWidth)
  | float
  | double
  | decimal128 (precision : ℕ)
  | date32
  | date64
  | timestamp (unit : TimeUnit)
  | intervalMonths
  | intervalDayTime
  | fixedSizeBinary
  | string
  deriving DecidableEq, Repr

def ArrowType.Value : ArrowType → Type
  | bool => Bool
  | int width => BitVec width.bits
  | float => BitVec 32
  | double => BitVec 64
  | decimal128 _ => BitVec 128
  | date32 => BitVec 32
  | date64 => BitVec 64
  | timestamp _ => BitVec 64
  | intervalMonths => BitVec 32
  | intervalDayTime => BitVec 32 × BitVec 32
  | fixedSizeBinary => BitVec 32
  | string => Text

def TimeUnit.multiplier : TimeUnit → BitVec 64
  | second => 1000000000
  | milli => 1000000
  | micro => 1000
  | nano => 1

def kNanosPerDay : BitVec 64 := 86400000000000

def kNanosPerMilli : BitVec 64 := 1000000

/-- The pieces folded in for a value. -/
def pieces : (type : ArrowType) → type.Value → List (BitVec 64)
  | .bool, (b : Bool) => [hash64 (if b then -1 else 0)]
  | .int _, v => [hash64 (signExtend 64 v)]
  | .float, v => [hash64 (signExtend 64 v)]
  | .double, v => [hash64 v]
  | .decimal128 precision, v =>
    let lowBits := setWidth 64 v
    if precision ≤ 18 then [hash64 lowBits]
    else
      let highBits := setWidth 64 (sshiftRight v 64)
      [hash64 highBits, hash64 lowBits]
  | .date32, v => [hash64 (signExtend 64 v * kNanosPerDay)]
  | .date64, (v : BitVec 64) => [hash64 (v * kNanosPerMilli)]
  | .timestamp unit, (v : BitVec 64) => [hash64 (v * unit.multiplier)]
  | .intervalMonths, v => [hash64 (signExtend 64 v)]
  | .intervalDayTime, (days, millis) =>
    [hash64 (signExtend 64 days * kNanosPerDay + signExtend 64 millis * kNanosPerMilli)]
  | .fixedSizeBinary, v => [hash64 (signExtend 64 v)]
  | .string, t => [dbHashVarLen32 xxHash64 t.mem (.ofPtr t.mem t.ptr t.len)]

/-- An Arrow array; a null is `none`. -/
structure Column where
  type : ArrowType
  values : List (Option type.Value)

/-- What a cell does to the hash of its row: a null string is hashed as the
invalid string, any other null is skipped. -/
def foldCell (type : ArrowType) (acc : BitVec 64) : Option type.Value → BitVec 64
  | some v => (pieces xxHash64 type v).foldl dbHashFoldPiece acc
  | none => if type = .string then dbHashFoldPiece acc (dbHashVarLen32 xxHash64 (fun _ => 0) .invalid) else acc

def dbHashApplyColumn (running : List (BitVec 64)) (arr : Column) : List (BitVec 64) :=
  List.zipWith (foldCell xxHash64 arr.type) running arr.values

/-- The hashes of `LingoDBHashIndex::rawInsert`. -/
def totalHash (numRows : ℕ) (columns : List Column) : List (BitVec 64) :=
  columns.foldl (dbHashApplyColumn xxHash64) (List.replicate numRows 0)

end Runtime

/-! ## Compiled code -/

/-- A lowered value. -/
inductive Value
  | int (width : ℕ) (v : BitVec width)
  | float (width : ℕ) (bits : BitVec width)
  | varLen (mem : ℕ → Fin 256) (v : VarLen32)
  | tuple (vs : List Value)
  | nullable (isNull : Bool) (v : Value)

section Compiled

variable (xxHash64 : Bytes → BitVec 64)

/-- `arith.index_cast` and `util.hash_64`. -/
def hashInteger {width : ℕ} (v : BitVec width) : BitVec 64 := hash64 (v.signExtend 64)

/-- `VarLenTryCheapHashLowering`: whether the hash is the whole one, and the
hash. -/
def varLenTryCheapHash (v : VarLen32) : Bool × BitVec 64 :=
  let first64 := v.asI128.setWidth 64
  let last64 := (v.asI128 >>> 64).setWidth 64
  let len := first64 &&& 0xffffffff
  (len < 13, hashCombine (hash64 first64) (hash64 last64))

mutual

/-- `HashLowering::hashImpl` over the hash of what came before. -/
def hashImpl : Value → Option (BitVec 64) → Option (BitVec 64)
  | .int width v, total =>
    if width = 128 then
      let low := v.setWidth 64
      let high := v >>> 64
      some (combineHashes (hashInteger low) (some (combineHashes (hashInteger high) total)))
    else some (combineHashes (hashInteger v) total)
  | .float _ bits, total => some (combineHashes (hashInteger bits) total)
  | .varLen mem v, total =>
    let cheap := varLenTryCheapHash v
    some (combineHashes (if cheap.1 then cheap.2 else hashVarLenData xxHash64 mem v) total)
  | .tuple vs, total => hashAll vs total
  | .nullable isNull v, total => if isNull then some (total.getD 0) else hashImpl v total

/-- The values of a tuple, or the operands of `db.hash`, one after the other. -/
def hashAll : List Value → Option (BitVec 64) → Option (BitVec 64)
  | [], total => total
  | v :: vs, total => hashAll vs (hashImpl v total)

end

/-- `db.hash`. -/
def compiledHash (vs : List Value) : Option (BitVec 64) := hashAll xxHash64 vs none

end Compiled

/-- `LoadArrowOpLowering`. -/
def loadArrow : (type : ArrowType) → type.Value → Value
  | .bool, b => .int 1 (ofBool b)
  | .int width, v => .int width.bits v
  | .float, v => .float 32 v
  | .double, v => .float 64 v
  | .decimal128 precision, v => if precision < 19 then .int 64 (setWidth 64 v) else .int 128 v
  | .date32, v => .int 64 (signExtend 64 v * kNanosPerDay)
  | .date64, (v : BitVec 64) => .int 64 (v * kNanosPerMilli)
  | .timestamp unit, (v : BitVec 64) => .int 64 (v * unit.multiplier)
  | .intervalMonths, v => .int 32 v
  | .intervalDayTime, (days, millis) =>
    .int 64 (signExtend 64 days * kNanosPerDay + signExtend 64 millis * kNanosPerMilli)
  | .fixedSizeBinary, v => .int 32 v
  | .string, t => .varLen t.mem (.ofPtr t.mem t.ptr t.len)

end GengoDB.Hash
