/-
The binary operators of the relational algebra and the tables of
`RelAlgOpsInterfaces.h` that say which of them may be reordered.

Relations are bags of rows with nulls. A predicate is true, false or unknown
on a row, and an operator keeps what is true. Most joins work on one left row
at a time (`RowJoin.expand`); the set operations compare whole rows of two
relations over the same columns, which here are the columns their mapping
creates, the inputs being renamed to them. The single join is lowered exactly
as the outer join and has its type; the collection join, which has no
lowering, gathers the requested columns of the matches in one value.
-/
import Mathlib.Data.Multiset.UnionInter
import GengoDB.Rows

namespace GengoDB.RelAlg

variable {C V : Type}

/-! ## Predicates -/

/-- The body of a predicate region: a function of the columns it reads. -/
structure Lambda (C V : Type) where
  used : List C
  fn : Row C V → Option Bool
  reads : ∀ r s : Row C V, (∀ c ∈ used, r c = s c) → fn r = fn s

/-- A predicate; comparisons of two columns are what the optimizer looks
into, `isa` being the comparison under which null equals null. -/
inductive Pred (C V : Type)
  | eq (a b : C)
  | isa (a b : C)
  | lambda (f : Lambda C V)
  | and (p q : Pred C V)

namespace Pred

def used : Pred C V → List C
  | .eq a b | .isa a b => [a, b]
  | .lambda f => f.used
  | .and p q => p.used ++ q.used

def eval [DecidableEq V] : Pred C V → Row C V → Option Bool
  | .eq a b, r =>
    match r a, r b with
    | some x, some y => some (x = y)
    | _, _ => none
  | .isa a b, r => some (r a = r b)
  | .lambda f, r => f.fn r
  | .and p q, r =>
    match p.eval r, q.eval r with
    | some false, _ | _, some false => some false
    | some true, some true => some true
    | _, _ => none

/-- What a selection or a join keeps. -/
def holds [DecidableEq V] (p : Pred C V) (r : Row C V) : Bool := p.eval r == some true

variable [DecidableEq V] {p : Pred C V} {r s : Row C V}

theorem eval_congr (h : ∀ c ∈ p.used, r c = s c) : p.eval r = p.eval s := by
  induction p with
  | eq a b | isa a b => simp [eval, h a (by simp [used]), h b (by simp [used])]
  | lambda f => exact f.reads r s h
  | and p q ihp ihq =>
    have hp := ihp fun c hc => h c (List.mem_append_left _ hc)
    have hq := ihq fun c hc => h c (List.mem_append_right _ hc)
    simp only [eval, hp, hq]

theorem holds_congr (h : ∀ c ∈ p.used, r c = s c) : p.holds r = p.holds s := by
  rw [holds, holds, eval_congr h]

end Pred

/-! ## Operators -/

/-- What the values of a database have to offer: truth values for mark joins
and bags of tuples for collection joins. -/
class Values (V : Type) where
  ofBool : Bool → V
  ofBag : Multiset (List (Option V)) → V

inductive SetSemantic
  | distinct
  | all
  deriving DecidableEq, Repr

/-- The joins that work on one row of the left input at a time. -/
inductive RowJoin (C V : Type)
  | crossProduct
  | innerJoin (p : Pred C V)
  | semiJoin (p : Pred C V)
  | antiSemiJoin (p : Pred C V)
  | outerJoin (p : Pred C V) (mapping : List (C × C))
  | singleJoin (p : Pred C V) (mapping : List (C × C))
  | markJoin (p : Pred C V) (markattr : C)
  | collectionJoin (p : Pred C V) (cols : List C) (collAttr : C)

inductive BinaryOperator (C V : Type)
  | union (s : SetSemantic)
  | intersect (s : SetSemantic)
  | except (s : SetSemantic)
  | fullOuterJoin (p : Pred C V) (mapping : List (C × C))
  | row (j : RowJoin C V)

/-- The columns a mapping creates, filled from the columns it names. -/
def remap [DecidableEq C] (mapping : List (C × C)) (r : Row C V) : Row C V := fun c =>
  (mapping.find? (·.1 = c)).bind fun m => r m.2

section Semantics

variable [DecidableEq C] [DecidableEq V]

def matching (p : Pred C V) (B : Multiset (Row C V)) (a : Row C V) : Multiset (Row C V) :=
  B.filter fun b => p.holds (a.merge b)

/-- The matches of an outer join under the columns it creates, or nothing but
nulls. -/
def matchesOrNull (p : Pred C V) (mapping : List (C × C)) (B : Multiset (Row C V)) (a : Row C V) : Multiset (Row C V) :=
  if (matching p B a).card = 0 then {Row.empty} else (matching p B a).map (remap mapping)

/-- The rows by which a join extends one row of its left input. -/
def RowJoin.expand [Values V] (j : RowJoin C V) (B : Multiset (Row C V)) (a : Row C V) : Multiset (Row C V) :=
  match j with
  | .crossProduct => B
  | .innerJoin p => matching p B a
  | .semiJoin p => if (matching p B a).card = 0 then 0 else {Row.empty}
  | .antiSemiJoin p => if (matching p B a).card = 0 then {Row.empty} else 0
  | .outerJoin p mapping => matchesOrNull p mapping B a
  | .singleJoin p mapping => matchesOrNull p mapping B a
  | .markJoin p markattr => {Row.single markattr (Values.ofBool ((matching p B a).card ≠ 0))}
  | .collectionJoin p cols collAttr =>
    {Row.single collAttr (Values.ofBag ((matching p B a).map fun b => cols.map (a.merge b)))}

def fullOuter (p : Pred C V) (mapping : List (C × C)) (A B : Multiset (Row C V)) : Multiset (Row C V) :=
  (A.bind fun a => (matching p B a).map fun b => remap mapping (a.merge b)) +
    (A.filter fun a => (matching p B a).card = 0).map (remap mapping) +
    (B.filter fun b => (A.filter fun a => p.holds (a.merge b)).card = 0).map (remap mapping)

/-- What an operator makes of the rows of its two inputs. -/
def BinaryOperator.apply [Values V] [DecidableEq (Row C V)] (op : BinaryOperator C V) (A B : Multiset (Row C V)) :
    Multiset (Row C V) :=
  match op with
  | .union .all => A + B
  | .union .distinct => (A + B).dedup
  | .intersect .all => A ∩ B
  | .intersect .distinct => A.dedup.filter (· ∈ B)
  | .except .all => A - B
  | .except .distinct => A.dedup.filter (· ∉ B)
  | .fullOuterJoin p mapping => fullOuter p mapping A B
  | .row j => Row.extend A (j.expand B)

end Semantics

/-! ## Reordering tables -/

inductive BinaryOperatorType
  | none
  | union
  | intersection
  | except
  | cp
  | innerJoin
  | semiJoin
  | antiSemiJoin
  | outerJoin
  | fullOuterJoin
  | markJoin
  | collectionJoin
  deriving DecidableEq, Repr

def RowJoin.type : RowJoin C V → BinaryOperatorType
  | .crossProduct => .cp
  | .innerJoin _ => .innerJoin
  | .semiJoin _ => .semiJoin
  | .antiSemiJoin _ => .antiSemiJoin
  | .singleJoin _ _ => .outerJoin
  | .markJoin _ _ => .markJoin
  | .collectionJoin _ _ _ => .collectionJoin
  | .outerJoin _ _ => .outerJoin

def getBinaryOperatorType : BinaryOperator C V → BinaryOperatorType
  | .union _ => .union
  | .intersect _ => .intersection
  | .except _ => .except
  | .fullOuterJoin _ _ => .fullOuterJoin
  | .row j => j.type

/-- The pairs a table flags. -/
abbrev CompatibilityTable := List (BinaryOperatorType × BinaryOperatorType)

def assoc : CompatibilityTable :=
  [(.union, .union),
   (.intersection, .intersection), (.intersection, .semiJoin), (.intersection, .antiSemiJoin),
   (.cp, .cp), (.cp, .innerJoin), (.cp, .semiJoin), (.cp, .antiSemiJoin), (.cp, .outerJoin), (.cp, .markJoin),
   (.cp, .collectionJoin),
   (.innerJoin, .cp), (.innerJoin, .innerJoin), (.innerJoin, .semiJoin), (.innerJoin, .antiSemiJoin),
   (.innerJoin, .outerJoin), (.innerJoin, .markJoin), (.innerJoin, .collectionJoin)]

def lAsscom : CompatibilityTable :=
  [(.union, .union),
   (.intersection, .intersection), (.intersection, .semiJoin), (.intersection, .antiSemiJoin),
   (.except, .semiJoin), (.except, .antiSemiJoin),
   (.cp, .cp), (.cp, .innerJoin), (.cp, .semiJoin), (.cp, .antiSemiJoin), (.cp, .outerJoin), (.cp, .markJoin),
   (.cp, .collectionJoin),
   (.innerJoin, .cp), (.innerJoin, .innerJoin), (.innerJoin, .semiJoin), (.innerJoin, .antiSemiJoin),
   (.innerJoin, .outerJoin), (.innerJoin, .markJoin), (.innerJoin, .collectionJoin),
   (.semiJoin, .intersection), (.semiJoin, .except), (.semiJoin, .cp), (.semiJoin, .innerJoin),
   (.semiJoin, .semiJoin), (.semiJoin, .antiSemiJoin), (.semiJoin, .outerJoin), (.semiJoin, .markJoin),
   (.semiJoin, .collectionJoin),
   (.antiSemiJoin, .intersection), (.antiSemiJoin, .except), (.antiSemiJoin, .cp), (.antiSemiJoin, .innerJoin),
   (.antiSemiJoin, .semiJoin), (.antiSemiJoin, .antiSemiJoin), (.antiSemiJoin, .outerJoin),
   (.antiSemiJoin, .markJoin), (.antiSemiJoin, .collectionJoin),
   (.outerJoin, .cp), (.outerJoin, .innerJoin), (.outerJoin, .semiJoin), (.outerJoin, .antiSemiJoin),
   (.outerJoin, .outerJoin), (.outerJoin, .markJoin), (.outerJoin, .collectionJoin),
   (.markJoin, .cp), (.markJoin, .innerJoin), (.markJoin, .semiJoin), (.markJoin, .antiSemiJoin),
   (.markJoin, .outerJoin), (.markJoin, .collectionJoin), (.markJoin, .markJoin),
   (.collectionJoin, .cp), (.collectionJoin, .innerJoin), (.collectionJoin, .semiJoin),
   (.collectionJoin, .antiSemiJoin), (.collectionJoin, .outerJoin), (.collectionJoin, .markJoin),
   (.collectionJoin, .collectionJoin)]

def rAsscom : CompatibilityTable :=
  [(.union, .union), (.intersection, .intersection), (.cp, .cp), (.cp, .innerJoin)]

variable (op₁ op₂ : BinaryOperator C V)

def isAssoc : Bool :=
  assoc.contains (getBinaryOperatorType op₁, getBinaryOperatorType op₂)

def isLAsscom : Bool :=
  lAsscom.contains (getBinaryOperatorType op₁, getBinaryOperatorType op₂)

def isRAsscom : Bool :=
  rAsscom.contains (getBinaryOperatorType op₁, getBinaryOperatorType op₂)

end GengoDB.RelAlg
