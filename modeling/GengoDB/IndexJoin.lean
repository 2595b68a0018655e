/-
The index nested-loop join: when `OptimizeImplementations` chooses it and
what `translateINLJ` makes of it.

The predicate of a join is a block of operations. The choice looks at its
comparisons: they must mention exactly the columns of the first index of the
table. The keys are the equalities of the block that are used for nothing but
its conjunction, in the order in which they stand there, whatever the order of
the conjuncts is; each is split into its two sides. For a row of the other input
the values of its keys are hashed and looked up in the index, which has hashed
the columns of the index in their order; what is found is compared with the
keys, then with the rest of the predicate, and then with the selections of the
table, which are moved above the join.

A side of a comparison that is no column is computed from columns, and for this
comparison alone. A lookup gives the rows of the table with the hash. Costs
decide nothing but which side is taken and whether an index is used at all; they
are inputs.
-/
import GengoDB.ColumnHashFacts
import GengoDB.JoinOperators
import GengoDB.Kleene
import GengoDB.StraightLine

namespace GengoDB.IndexJoin

variable {C V : Type}

/-! ## Predicates -/

/-- A side of a comparison: a column, or something computed from columns. -/
inductive Operand (C V : Type)
  | column (c : C)
  | expr (used : List C) (fn : Row C V → Option V)
      (reads : ∀ r s : Row C V, (∀ c ∈ used, r c = s c) → fn r = fn s)

namespace Operand

def required : Operand C V → List C
  | column c => [c]
  | expr used _ _ => used

def eval : Operand C V → Row C V → Option V
  | column c, r => r c
  | expr _ fn _, r => fn r

/-- The column of a `GetColumnOp`. -/
def getColumn : Operand C V → Option C
  | column c => some c
  | expr _ _ _ => none

end Operand

/-- What is compared for: equality, equality with null equal to null, or
another comparison of two values. -/
inductive DBCmpPredicate (V : Type)
  | eq
  | isa
  | other (fn : V → V → Bool)

def DBCmpPredicate.isEqualityPred (nullsAreEqual : Bool) : DBCmpPredicate V → Bool
  | eq => true
  | isa => nullsAreEqual
  | other _ => false

/-- An operation of a predicate block. The truth values it takes are results of
other operations, by their positions; `other` is everything that is neither a
comparison nor an `AndOp`. -/
inductive Op (C V : Type)
  | cmp (predicate : DBCmpPredicate V) (left right : Operand C V)
  | and (vals : List ℕ)
  | other (vals : List ℕ) (used : List C) (fn : List (Option Bool) → Row C V → Option Bool)
      (reads : ∀ l (r s : Row C V), (∀ c ∈ used, r c = s c) → fn l r = fn l s)

namespace Op

def operands : Op C V → List ℕ
  | cmp _ _ _ => []
  | and vals => vals
  | other vals _ _ _ => vals

def isAnd : Op C V → Bool
  | and _ => true
  | _ => false

def used : Op C V → List C
  | cmp _ left right => left.required ++ right.required
  | and _ => []
  | other _ used _ _ => used

end Op

/-- A predicate block: operations that take results of earlier ones, and the one
whose result is returned. -/
structure Block (C V : Type) where
  ops : List (Op C V)
  returned : ℕ
  defined : ∀ i (op : Op C V), ops[i]? = some op → ∀ j ∈ op.operands, j < i
  returns : returned < ops.length

section Eval

variable (equal : V → V → Bool)

def DBCmpPredicate.eval : DBCmpPredicate V → Option V → Option V → Option Bool
  | eq, some x, some y => some (equal x y)
  | eq, _, _ => none
  | isa, some x, some y => some (equal x y)
  | isa, none, none => some true
  | isa, _, _ => some false
  | other fn, some x, some y => some (fn x y)
  | other _, _, _ => none

/-- The result of an operation for a row, with the results before it. -/
def Op.eval (r : Row C V) (op : Op C V) (results : List (Option Bool)) : Option Bool :=
  match op with
  | cmp predicate left right => predicate.eval equal (left.eval r) (right.eval r)
  | and vals => Kleene.conj (vals.map fun i => results.getD i none)
  | other vals _ fn _ => fn (vals.map fun i => results.getD i none) r

def Block.results (p : Block C V) (r : Row C V) : List (Option Bool) := StraightLine.results (Op.eval equal r) p.ops

def Block.value (p : Block C V) (r : Row C V) (i : ℕ) : Option Bool := (p.results equal r).getD i none

def Block.holds (p : Block C V) (r : Row C V) : Bool := p.value equal r p.returned == some true

end Eval

namespace Block

def used (p : Block C V) : List C := p.ops.flatMap Op.used

/-- `isAndedResult` of the operations from position `i` on: every user of an
operation is the return or an `AndOp` of which the same is true. -/
def andedFrom : ℕ → List (Op C V) → List Bool
  | _, [] => []
  | i, _ :: ops =>
    let rest := andedFrom (i + 1) ops
    (List.zipWith (fun user anded => !decide (i ∈ user.operands) || user.isAnd && anded) ops rest).all id :: rest

def isAndedResult (p : Block C V) (i : ℕ) : Bool := (andedFrom 0 p.ops).getD i false

/-- The operations that `collectAndedResults` collects below an operation. -/
def collect (op : Op C V) (results : List (List ℕ)) : List ℕ :=
  match op with
  | .and vals => vals.flatMap fun i => results.getD i []
  | _ => [results.length]

/-- `collectAndedResults` of the block. -/
def andedResults (p : Block C V) : List ℕ := (StraightLine.results collect p.ops).getD p.returned []

end Block

/-! ## Keys -/

variable [DecidableEq C] (keyAttributes otherAttributes : List C)

/-- The side of a comparison that belongs to `keyAttributes`. -/
def keyVal (left right : Operand C V) : Option (Operand C V) :=
  if left.required ⊆ keyAttributes ∧ right.required ⊆ otherAttributes then some left
  else if right.required ⊆ keyAttributes ∧ left.required ⊆ otherAttributes then some right
  else none

/-- A key, with the position of its comparison. -/
structure Key (C V : Type) where
  position : ℕ
  value : Operand C V
  nullsEqual : Bool

/-- The key of an operation, if it is one. -/
def keyOf (p : Block C V) : Op C V × ℕ → Option (Key C V)
  | (.cmp predicate left right, i) =>
    if predicate.isEqualityPred true && p.isAndedResult i then
      (keyVal keyAttributes otherAttributes left right).map (⟨i, ·, !predicate.isEqualityPred false⟩)
    else none
  | _ => none

/-- The keys of `extractKeys`, which walks the block. -/
def extractKeys (p : Block C V) : List (Key C V) :=
  p.ops.zipIdx.filterMap (keyOf keyAttributes otherAttributes p)

/-- A base table. `restricted` tells of filters that were pushed into it. -/
structure Table (C V : Type) where
  columns : List C
  indices : List (List C)
  restricted : Bool
  rows : Multiset (Row C V)
  within : ∀ r ∈ rows, Row.Within {c | c ∈ columns} r

/-- An input of a join: a base table below selections, or anything else. -/
inductive Input (C V : Type)
  | table (t : Table C V) (selections : List (Block C V))
  | other (columns : List C) (rows : Multiset (Row C V)) (within : ∀ r ∈ rows, Row.Within {c | c ∈ columns} r)

def Input.columns : Input C V → List C
  | table t _ => t.columns
  | other columns _ _ => columns

def Input.rows (equal : V → V → Bool) : Input C V → Multiset (Row C V)
  | table t selections => t.rows.filter fun r => selections.all fun q => q.holds equal r
  | other _ rows _ => rows

/-! ## The choice -/

/-- How values are stored in Arrow columns and held by compiled code, and how
they are compared. -/
structure Storage (C V : Type) where
  type : C → Hash.ArrowType
  store : (t : Hash.ArrowType) → V → t.Value
  compiled : Hash.ArrowType → V → Hash.Value
  represents : ∀ t v, Hash.Represents t (store t v) (compiled t v)
  xxHash64 : Bytes → BitVec 64
  equal : V → V → Bool
  equal_comm : ∀ v w, equal v w = equal w v

variable (st : Storage C V)

/-- The hash an index has for a row. -/
def indexHash (indexColumns : List C) (r : Row C V) : BitVec 64 :=
  indexColumns.foldl (fun acc c => Hash.foldCell st.xxHash64 (st.type c) acc ((r c).map (st.store (st.type c)))) 0

/-- A key in compiled code, of the type of the column it is compared with. -/
def keyValue (t : Hash.ArrowType) : Option V → Hash.Value
  | some v => .nullable false (st.compiled t v)
  | none => .nullable true (.int 64 0)

/-- `db.hash` of the keys of a row. -/
def lookupHash (types : List Hash.ArrowType) (keys : List (Option V)) : BitVec 64 :=
  (Hash.compiledHash st.xxHash64 (List.zipWith (keyValue st) types keys)).getD 0

/-- The comparison of a key, as it is made again after the lookup. -/
def keyHolds (nullsEqual : Bool) (l r : Option V) : Bool :=
  (if nullsEqual then DBCmpPredicate.isa else .eq).eval st.equal l r == some true

/-- `createVerifyEqFnForTuple`. -/
def verifyEq (probeKeys tableKeys : List (Key C V)) (s : Row C V) : Bool :=
  (List.zipWith (fun l k => keyHolds st k.nullsEqual (l.value.eval s) (k.value.eval s)) probeKeys tableKeys).all id

/-- An inner join as it is meant. -/
def innerJoin (left right : Input C V) (p : Block C V) : Multiset (Row C V) :=
  (left.rows st.equal).bind fun a =>
    ((right.rows st.equal).map fun b => a.merge b).filter fun s => p.holds st.equal s

end GengoDB.IndexJoin
