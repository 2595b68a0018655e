/-
Selections that become filters of a base table (`tryPushdownIntoBasetable`)
and the kernels made of them (`Restrictions::create`).

A selection is described by a column name, an operator and constants that are
texts or 64-bit integers; the type of the column is looked at again only when
the kernels are made, from the Arrow schema. Integers are narrowed to the
width of the column, a character is its bytes read as a 32-bit integer, and
decimals are integers at the scale of the column. What Arrow makes of the text
of a date or of a decimal, and of a decimal at another scale, is a parameter.

The meaning of a selection is given for whole values: numbers are compared as
numbers, texts by their bytes, and null makes a comparison unknown.
-/
import Mathlib.Algebra.Order.Field.Rat
import GengoDB.ColumnHash
import GengoDB.Fallible
import GengoDB.Kleene
import GengoDB.RestrictionsFacts

namespace GengoDB.Scan

open Fallible

open Hash (IntWidth TimeUnit)

/-! ## Tables -/

inductive IntervalUnit
  | months
  | dayTime
  deriving DecidableEq

inductive ColumnType
  | boolean
  | int (width : IntWidth)
  | float
  | double
  | decimal (precision scale : ℕ)
  | date32
  | date64
  | timestamp (unit : TimeUnit)
  | interval (unit : IntervalUnit)
  | char (length : ℕ)
  | string
  deriving DecidableEq

/-- Arrow types; of those without filters the name. -/
inductive StorageType
  | fixedSizeBinary (byteWidth : ℕ)
  | int (width : IntWidth)
  | date32
  | decimal128 (precision scale : ℕ)
  | string
  | other (name : String)
  deriving DecidableEq

def ColumnType.storageType : ColumnType → StorageType
  | boolean => .other "bool"
  | int width => .int width
  | float => .other "float"
  | double => .other "double"
  | decimal precision scale => .decimal128 precision scale
  | date32 => .date32
  | date64 => .other "date64[ms]"
  | timestamp .second => .other "timestamp[s]"
  | timestamp .milli => .other "timestamp[ms]"
  | timestamp .micro => .other "timestamp[us]"
  | timestamp .nano => .other "timestamp[ns]"
  | interval .months => .other "month_interval"
  | interval .dayTime => .other "day_time_interval"
  | char length => if length = 1 then .fixedSizeBinary 4 else .string
  | string => .string

def ColumnType.isChar : ColumnType → Bool
  | char _ => true
  | _ => false

structure Column where
  name : String
  type : ColumnType
  nullable : Bool

structure Schema where
  columns : List Column
  nodup : (columns.map Column.name).Nodup

/-- A column and its index (`GetFieldIndex`). -/
def Schema.field (schema : Schema) (name : String) : Option (Column × ℕ) :=
  schema.columns.zipIdx.find? fun c => c.1.name = name

/-! ## Predicates -/

inductive Value
  | number (q : ℚ)
  | text (s : List UInt8)
  deriving DecidableEq

/-- The cells of a row by the names of the columns. -/
abbrev Cells := String → Option Value

inductive Attribute
  | string (s : List UInt8)
  | integer (n : ℤ)
  | float (bits : BitVec 64)

/-- What a comparison is made of: a column, a column cast to string, a constant
of a type, or anything else that is computed. -/
inductive Operand
  | column (name : String)
  | castToString (name : String)
  | constant (value : Attribute) (type : ColumnType)
  | other (type : ColumnType) (fn : Cells → Option Value)

def Operand.baseType (schema : Schema) : Operand → Option ColumnType
  | column name => (schema.field name).map fun c => c.1.type
  | castToString _ => some .string
  | constant _ type => some type
  | other type _ => some type

inductive DBCmpPredicate
  | cmp (cmp : Cmp)
  | isa
  deriving DecidableEq

inductive Predicate
  | notIsNull (val : Operand)
  | compare (predicate : DBCmpPredicate) (left right : Operand)
  | between (val lower upper : Operand) (lowerInclusive upperInclusive : Bool)
  | oneOf (val : Operand) (vals : List Operand)

/-! ## From a predicate to filter descriptions -/

inductive FilterOp
  | cmp (cmp : Cmp)
  | notnull
  | isIn
  deriving DecidableEq

inductive Constant
  | string (s : List UInt8)
  | int (n : ℤ)
  | double (bits : BitVec 64)

inductive ConstantList
  | strings (values : List (List UInt8))
  | ints (values : List ℤ)
  | doubles (values : List (BitVec 64))

/-- A constant of another kind than the ones before it starts the list again. -/
def ConstantList.push : ConstantList → Constant → ConstantList
  | strings values, .string s => strings (values ++ [s])
  | _, .string s => strings [s]
  | ints values, .int n => ints (values ++ [n])
  | _, .int n => ints [n]
  | doubles values, .double x => doubles (values ++ [x])
  | _, .double x => doubles [x]

structure FilterDescription where
  columnName : String
  op : FilterOp
  value : Constant
  values : ConstantList

def convertCmpMode : DBCmpPredicate → FilterOp
  | .cmp c => .cmp c
  | .isa => .isIn

def Cmp.reverse : Cmp → Cmp
  | eq => eq
  | neq => neq
  | lt => gt
  | gt => lt
  | lte => gte
  | gte => lte

def reverseCmpMode : FilterOp → FilterOp
  | .cmp c => .cmp c.reverse
  | _ => .isIn

def getColumnName (schema : Schema) : Operand → Option Column
  | .column name => (schema.field name).map Prod.fst
  | .castToString name => ((schema.field name).map Prod.fst).filter fun c => c.type.isChar
  | _ => none

def getConstant : Operand → Option Constant
  | .constant (.string s) _ => some (.string s)
  | .constant (.integer n) _ => some (.int n)
  | _ => none

def notNullDescription (columnName : String) : FilterDescription := ⟨columnName, .notnull, .int 0, .strings []⟩

/-- The descriptions for a column, after one against nulls if there can be any. -/
def restrictColumn (c : Column) (descs : List FilterDescription) : List FilterDescription :=
  if c.nullable then notNullDescription c.name :: descs else descs

/-- The filter descriptions added to the base table; `none` if the selection is
left where it is. -/
def tryPushdownIntoBasetable (schema : Schema) : Predicate → Option (List FilterDescription)
  | .notIsNull val => (getColumnName schema val).map fun c => [notNullDescription c.name]
  | .compare predicate left right =>
    if left.baseType schema ≠ right.baseType schema then none
    else
      match getColumnName schema left, getConstant right with
      | some c, some v => some (restrictColumn c [⟨c.name, convertCmpMode predicate, v, .strings []⟩])
      | _, _ =>
        match getColumnName schema right, getConstant left with
        | some c, some v =>
          some (restrictColumn c [⟨c.name, reverseCmpMode (convertCmpMode predicate), v, .strings []⟩])
        | _, _ => none
  | .between val lower upper lowerInclusive upperInclusive =>
    if val.baseType schema ≠ lower.baseType schema ∨ val.baseType schema ≠ upper.baseType schema then none
    else
      match getColumnName schema val, getConstant lower, getConstant upper with
      | some c, some l, some u =>
        some (restrictColumn c
          [⟨c.name, .cmp (if lowerInclusive then .gte else .gt), l, .strings []⟩,
            ⟨c.name, .cmp (if upperInclusive then .lte else .lt), u, .strings []⟩])
      | _, _, _ => none
  | .oneOf val vals =>
    match getColumnName schema val, vals.mapM getConstant with
    | some c, some constants =>
      some (restrictColumn c [⟨c.name, .isIn, .int 0, constants.foldl .push (.strings [])⟩])
    | _, _ => none

/-! ## From filter descriptions to kernels -/

/-- What Arrow makes of texts: the day of a date, and the digits of a decimal
with the number of them behind the point. `Decimal128::Rescale` takes digits
from one number of them behind the point to another; nothing is assumed of it. -/
structure Parsers where
  date32 : List UInt8 → Option ℤ
  decimal : List UInt8 → Option (ℤ × ℕ)
  rescale : ℤ → ℕ → ℕ → Option ℤ

inductive Failure
  | runtimeError (what : String)
  | badVariantAccess
  | abort
  deriving DecidableEq

def Constant.getString : Constant → Except Failure (List UInt8)
  | string s => .ok s
  | _ => .error .badVariantAccess

def Constant.getInt : Constant → Except Failure ℤ
  | int n => .ok n
  | _ => .error .badVariantAccess

def ConstantList.getStrings : ConstantList → Except Failure (List (List UInt8))
  | strings values => .ok values
  | _ => .error .badVariantAccess

def ConstantList.getInts : ConstantList → Except Failure (List ℤ)
  | ints values => .ok values
  | _ => .error .badVariantAccess

/-- `static_cast` to a signed type of `bits` bits. -/
def narrow (bits : ℕ) (n : ℤ) : ℤ := Int.bmod n (2 ^ bits)

/-- `memcpy` of bytes into a number that is zero. -/
def packBytes : List UInt8 → ℕ
  | [] => 0
  | b :: bytes => b.toNat + 256 * packBytes bytes

variable (parsers : Parsers)

def parseDate32 (s : List UInt8) : Except Failure ℤ :=
  match parsers.date32 s with
  | some day => .ok day
  | none => .error (.runtimeError "could not parse date")

def decimalConstant (scale : ℕ) : Constant → Except Failure ℤ
  | .string s =>
    match (parsers.decimal s).bind fun d => parsers.rescale d.1 d.2 scale with
    | some value => .ok value
    | none => .error .abort
  | .int n => .ok (narrow 128 (n * 10 ^ scale))
  | .double _ => .error (.runtimeError "unsupported decimal constant type")

def createSimpleTypeSimpleFilters (op : FilterOp) (value : ℤ) : Except Failure Filter :=
  match op with
  | .cmp c => .ok (.simpleType c value)
  | _ => .error (.runtimeError "unsupported filter op")

def createSimpleTypeFilter (bits : ℕ) (desc : FilterDescription) : Except Failure Filter :=
  match desc.op with
  | .cmp c => do createSimpleTypeSimpleFilters (.cmp c) (narrow bits (← desc.value.getInt))
  | .isIn => do return .simpleTypeIn ((← desc.values.getInts).map (narrow bits))
  | .notnull => .error (.runtimeError "unsupported filter op")

/-- The kernel for a description that is not about nulls. -/
def createFilter (type : StorageType) (desc : FilterDescription) : Except Failure Filter :=
  match type with
  | .fixedSizeBinary byteWidth =>
    if byteWidth = 4 then do
      createSimpleTypeSimpleFilters desc.op (narrow 32 (packBytes ((← desc.value.getString).take 4)))
    else .error (.runtimeError "unsupported fixed size binary width in filter")
  | .int width => createSimpleTypeFilter width.bits desc
  | .date32 =>
    match desc.op with
    | .isIn => do return .simpleTypeIn (← (← desc.values.getStrings).mapM (parseDate32 parsers))
    | op => do createSimpleTypeSimpleFilters op (← parseDate32 parsers (← desc.value.getString))
  | .decimal128 _ scale => do createSimpleTypeSimpleFilters desc.op (← decimalConstant parsers scale desc.value)
  | .string =>
    match desc.op with
    | .cmp c => do return .varLen32 c (← desc.value.getString)
    | .isIn => do return .varLen32In (← desc.values.getStrings)
    | .notnull => do
      let _ ← desc.value.getString
      .error (.runtimeError "unsupported filter op for string")
  | .other name => .error (.runtimeError ("unsupported type in filter" ++ name))

theorem simpleFilters_ne_firstNotNull {op : FilterOp} {value : ℤ} {f : Filter}
    (h : createSimpleTypeSimpleFilters op value = .ok f) : f ≠ .firstNotNull := by
  cases op <;> cases h
  exact Filter.noConfusion

theorem createFilter_ne_firstNotNull {parsers : Parsers} {type : StorageType} {desc : FilterDescription} {f : Filter}
    (h : createFilter parsers type desc = .ok f) : f ≠ .firstNotNull := by
  cases type with
  | fixedSizeBinary byteWidth =>
    rw [createFilter] at h
    split at h
    · obtain ⟨s, -, h⟩ := bind_eq_ok.mp h
      exact simpleFilters_ne_firstNotNull h
    · cases h
  | int width =>
    rw [createFilter, createSimpleTypeFilter] at h
    split at h
    · obtain ⟨n, -, h⟩ := bind_eq_ok.mp h
      exact simpleFilters_ne_firstNotNull h
    · obtain ⟨values, -, h⟩ := bind_eq_ok.mp h
      cases h
      exact Filter.noConfusion
    · cases h
  | date32 =>
    rw [createFilter] at h
    split at h
    · obtain ⟨texts, -, h⟩ := bind_eq_ok.mp h
      obtain ⟨values, -, h⟩ := bind_eq_ok.mp h
      cases h
      exact Filter.noConfusion
    · obtain ⟨s, -, h⟩ := bind_eq_ok.mp h
      obtain ⟨day, -, h⟩ := bind_eq_ok.mp h
      exact simpleFilters_ne_firstNotNull h
  | decimal128 precision scale =>
    obtain ⟨value, -, h⟩ := bind_eq_ok.mp h
    exact simpleFilters_ne_firstNotNull h
  | string =>
    rw [createFilter] at h
    split at h
    all_goals
      obtain ⟨s, -, h⟩ := bind_eq_ok.mp h
      cases h
    all_goals exact Filter.noConfusion
  | other name => cases h

/-- One more filter of a scan. -/
def Restrictions.push (r : Restrictions) (f : Filter) (colId : ℕ) (hf : r.filters = [] ∨ f ≠ .firstNotNull) :
    Restrictions where
  filters := r.filters ++ [(f, colId)]
  firstOnly g hg := by
    rcases hf with hempty | hne
    · rw [hempty] at hg
      exact absurd hg List.not_mem_nil
    · rcases hr : r.filters with _ | ⟨g', gs⟩
      · rw [hr] at hg
        exact absurd hg List.not_mem_nil
      · rw [hr, List.cons_append, List.tail_cons] at hg
        rcases List.mem_append.mp hg with hold | hnew
        · exact r.firstOnly g (by rw [hr]; exact hold)
        · rw [List.mem_singleton.mp hnew]
          exact hne

def Restrictions.add (schema : Schema) (r : Restrictions) (desc : FilterDescription) : Except Failure Restrictions :=
  match schema.field desc.columnName with
  | none => .error (.runtimeError "unknown column in filter")
  | some (c, colId) =>
    if desc.op = .notnull then
      if hempty : r.filters = [] then .ok (r.push .firstNotNull colId (.inl hempty))
      else .ok (r.push .notNull colId (.inr Filter.noConfusion))
    else
      match hf : createFilter parsers c.type.storageType desc with
      | .ok f => .ok (r.push f colId (.inr (createFilter_ne_firstNotNull hf)))
      | .error e => .error e

def Restrictions.create (schema : Schema) (descs : List FilterDescription) : Except Failure Restrictions :=
  descs.foldlM (Restrictions.add parsers schema) ⟨[], by simp⟩

/-! ## Meaning of predicates -/

/-- A comparison of two values, unknown if one of them is null. -/
def Value.compare (cmp : Cmp) : Option Value → Option Value → Option Bool
  | some (number x), some (number y) => some (cmp.apply x y)
  | some (text s), some (text t) => some (cmp.apply s t)
  | _, _ => none

/-- The bytes of a character stored as a number, up to the last that is not
zero. -/
def unpackBytes : ℕ → ℕ → List UInt8
  | 0, _ => []
  | k + 1, n => if n = 0 then [] else UInt8.ofNat n :: unpackBytes k (n / 256)

/-- The value of a row that is not null. -/
def ColumnType.decode (type : ColumnType) (view : ArrayView) (row : ℕ) : Value :=
  match type with
  | decimal _ scale => .number (view.value row / 10 ^ scale)
  | char length => .text (if length = 1 then unpackBytes 4 (view.value row % 2 ^ 32).toNat else view.text row)
  | string => .text (view.text row)
  | _ => .number (view.value row)

/-- The value of a constant of a type; types that no filter is made for have
none here. -/
def Constant.denote : ColumnType → Constant → Option Value
  | .int _, int n => some (.number n)
  | .decimal _ _, int n => some (.number n)
  | .decimal _ _, string s => (parsers.decimal s).map fun d : ℤ × ℕ => .number (d.1 / 10 ^ d.2)
  | .date32, string s => (parsers.date32 s).map fun day : ℤ => .number day
  | .char _, string s => some (.text s)
  | .string, string s => some (.text s)
  | .boolean, int n => some (.number (if n = 0 then 0 else 1))
  | _, _ => none

def Operand.eval (cells : Cells) : Operand → Option Value
  | column name => cells name
  | castToString name =>
    match cells name with
    | some (.text s) => some (.text s)
    | _ => none
  | constant (.string s) type => Constant.denote parsers type (.string s)
  | constant (.integer n) type => Constant.denote parsers type (.int n)
  | constant (.float bits) type => Constant.denote parsers type (.double bits)
  | other _ fn => fn cells

/-- A predicate in three-valued logic. -/
def Predicate.eval (cells : Cells) : Predicate → Option Bool
  | notIsNull val => some (val.eval parsers cells).isSome
  | compare (.cmp c) left right => Value.compare c (left.eval parsers cells) (right.eval parsers cells)
  | compare .isa left right => some (left.eval parsers cells = right.eval parsers cells)
  | between val lower upper lowerInclusive upperInclusive =>
    Kleene.and
      (Value.compare (if lowerInclusive then .gte else .gt) (val.eval parsers cells) (lower.eval parsers cells))
      (Value.compare (if upperInclusive then .lte else .lt) (val.eval parsers cells) (upper.eval parsers cells))
  | oneOf val vals =>
    vals.foldr (fun v b => Kleene.or (Value.compare .eq (val.eval parsers cells) (v.eval parsers cells)) b) (some false)

/-- The cells of a position of a batch. -/
def Batch.cells (b : Batch) (schema : Schema) (pos : ℕ) : Cells := fun name =>
  (schema.field name).bind fun c =>
    let view := b.getArrayView c.2
    if view.isValid (pos + b.offset) then some (c.1.type.decode view (pos + b.offset)) else none

end GengoDB.Scan
