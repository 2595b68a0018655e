/-
The pass `ImplicitToExplicitJoins` on IN and EXISTS.

A selection or a map may hold subqueries in its expression. The pass takes
them out one by one: a selection that returns just the subquery, or its
negation, becomes a semi or an anti semi join; in any other place the input
gets a mark join and the subquery is replaced by the mark. The value looked up
by IN is compared with the first of the columns available in the subquery. A
mark is true or false, also where SQL has the value unknown.
-/
import Mathlib.Data.Fintype.Option
import GengoDB.Kleene
import GengoDB.OuterJoins

namespace GengoDB.ImplicitJoins

open RelAlg

variable {C V : Type}

/-! ## Expressions with subqueries -/

/-- A value computed from a tuple. -/
structure Scalar (C V : Type) where
  used : List C
  fn : Row C V → Option V
  reads : ∀ r s : Row C V, (∀ c ∈ used, r c = s c) → fn r = fn s

/-- A subquery below an expression over the columns `L`, which it may refer to:
its available columns in the order in which the set of them is run through, the
column that it returns, and its rows. -/
structure Subquery (L : Set C) (V : Type) where
  available : List C
  returned : C
  rows : Row C V → Multiset (Row C V)
  returned_mem : returned ∈ available
  reads : ∀ r s, Set.EqOn r s L → rows r = rows s
  within : ∀ r, ∀ b ∈ rows r, Row.Within {c | c ∈ available} b
  separate : ∀ c ∈ available, c ∉ L

inductive SubqueryOp (L : Set C) (V : Type)
  | existsOp (rel : Subquery L V)
  | inOp (val : Scalar C V) (hval : ∀ c ∈ val.used, c ∈ L) (rel : Subquery L V)

def SubqueryOp.rel {L : Set C} : SubqueryOp L V → Subquery L V
  | existsOp rel => rel
  | inOp _ _ rel => rel

inductive Expr (L : Set C) (V : Type)
  | value (f : Lambda C V) (hf : ∀ c ∈ f.used, c ∈ L)
  | op (q : SubqueryOp L V)
  | andOp (e f : Expr L V)
  | orOp (e f : Expr L V)
  | notOp (e : Expr L V)

/-- An operator with expressions: a selection, or a map with the columns it
computes. -/
inductive Surrounding (L : Set C) (V : Type)
  | selection (e : Expr L V)
  | map (computed : List (C × Expr L V))

/-- The values of the columns of a map. -/
def computedColumns {E : Type} [DecidableEq C] [Values V] (eval : E → Row C V → Option Bool) (computed : List (C × E))
    (r : Row C V) : Row C V := fun c =>
  (computed.find? (·.1 = c)).bind fun m => (eval m.2 r).map Values.ofBool

section

variable [DecidableEq V]

/-- Equality as `db.compare` has it, unknown if a side is null. -/
def compareEq : Option V → Option V → Option Bool
  | some x, some y => some (x = y)
  | _, _ => none

/-! ## Meaning in SQL -/

/-- The value of IN: true with an equal element, false if every comparison is
false, and unknown otherwise. -/
def sqlIn (x : Option V) (elements : Multiset (Option V)) : Option Bool :=
  if some true ∈ elements.map (compareEq x) then some true
  else if ∀ b ∈ elements.map (compareEq x), b = some false then some false
  else none

variable {L : Set C}

def SubqueryOp.sql : SubqueryOp L V → Row C V → Option Bool
  | existsOp rel, r => some ((rel.rows r).card ≠ 0)
  | inOp val _ rel, r => sqlIn (val.fn r) ((rel.rows r).map fun b => b rel.returned)

def Expr.sql : Expr L V → Row C V → Option Bool
  | value f _, r => f.fn r
  | op q, r => q.sql r
  | andOp e f, r => Kleene.and (e.sql r) (f.sql r)
  | orOp e f, r => Kleene.or (e.sql r) (f.sql r)
  | notOp e, r => Kleene.not (e.sql r)

def Surrounding.sql [DecidableEq C] [Values V] : Surrounding L V → Multiset (Row C V) → Multiset (Row C V)
  | selection e, A => A.filter fun a => e.sql a = some true
  | map computed, A => A.map fun a => a.merge (computedColumns Expr.sql computed a)

/-! ## The pass -/

/-- The column IN compares with: the first available one. -/
def Subquery.searchInAttr (rel : Subquery L V) : C :=
  rel.available.head (List.ne_nil_of_mem rel.returned_mem)

/-- The predicate of the join that replaces a subquery. -/
def SubqueryOp.predicate : SubqueryOp L V → Pred C V
  | existsOp _ => .lambda ⟨[], fun _ => some true, fun _ _ _ => rfl⟩
  | inOp val _ rel => .lambda
    ⟨rel.searchInAttr :: val.used, fun r => compareEq (val.fn r) (r rel.searchInAttr), fun r s h => by
      rw [val.reads r s fun c hc => h c (List.mem_cons_of_mem _ hc), h _ List.mem_cons_self]⟩

/-- An expression without subqueries, which reads the columns of marks. -/
inductive Replaced (C V : Type)
  | value (f : Lambda C V)
  | getColumn (c : C)
  | andOp (e f : Replaced C V)
  | orOp (e f : Replaced C V)
  | notOp (e : Replaced C V)

/-- The subqueries of an expression, in the order in which they are reached,
are replaced by the marks `fresh n`, `fresh (n + 1)` and so on. -/
def replaceOps (fresh : ℕ → C) : Expr L V → ℕ → Replaced C V × List (C × SubqueryOp L V)
  | .value f _, _ => (.value f, [])
  | .op q, n => (.getColumn (fresh n), [(fresh n, q)])
  | .andOp e f, n =>
    let (e', marks) := replaceOps fresh e n
    let (f', marks') := replaceOps fresh f (n + marks.length)
    (.andOp e' f', marks ++ marks')
  | .orOp e f, n =>
    let (e', marks) := replaceOps fresh e n
    let (f', marks') := replaceOps fresh f (n + marks.length)
    (.orOp e' f', marks ++ marks')
  | .notOp e, n =>
    let (e', marks) := replaceOps fresh e n
    (.notOp e', marks)

def replaceAll (fresh : ℕ → C) : List (C × Expr L V) → ℕ → List (C × Replaced C V) × List (C × SubqueryOp L V)
  | [], _ => ([], [])
  | (c, e) :: computed, n =>
    let (e', marks) := replaceOps fresh e n
    let (computed', marks') := replaceAll fresh computed (n + marks.length)
    ((c, e') :: computed', marks ++ marks')

/-- A subquery that a selection returns, and whether it is negated. -/
def directSelection : Expr L V → Option (Bool × SubqueryOp L V)
  | .op q => some (false, q)
  | .notOp (.op q) => some (true, q)
  | _ => none

end

/-- Values among which truth values can be told apart. -/
class TruthValues (V : Type) extends Values V where
  truth : V → Bool
  truth_ofBool : ∀ b, truth (ofBool b) = b

section

variable [DecidableEq C] [DecidableEq V] [TruthValues V] {L : Set C}

def Replaced.eval : Replaced C V → Row C V → Option Bool
  | value f, r => f.fn r
  | getColumn c, r => (r c).map TruthValues.truth
  | andOp e f, r => Kleene.and (e.eval r) (f.eval r)
  | orOp e f, r => Kleene.or (e.eval r) (f.eval r)
  | notOp e, r => Kleene.not (e.eval r)

/-- A join with the rows of a subquery. -/
def joinSubquery (j : RowJoin C V) (rel : Subquery L V) (A : Multiset (Row C V)) : Multiset (Row C V) :=
  Row.extend A fun a => j.expand (rel.rows a) a

def markJoins (marks : List (C × SubqueryOp L V)) (A : Multiset (Row C V)) : Multiset (Row C V) :=
  marks.foldl (fun A m => joinSubquery (.markJoin m.2.predicate m.1) m.2.rel A) A

/-- The columns of the marks that the pass adds to the input. -/
def Surrounding.marks (fresh : ℕ → C) : Surrounding L V → List C
  | selection e => if (directSelection e).isSome then [] else (replaceOps fresh e 0).2.map Prod.fst
  | map computed => (replaceAll fresh computed 0).2.map Prod.fst

/-- The rows of the operator after the pass. -/
def Surrounding.explicit (fresh : ℕ → C) : Surrounding L V → Multiset (Row C V) → Multiset (Row C V)
  | selection e, A =>
    match directSelection e with
    | some (negated, q) =>
      joinSubquery (if negated then .antiSemiJoin q.predicate else .semiJoin q.predicate) q.rel A
    | none => (markJoins (replaceOps fresh e 0).2 A).filter fun r => (replaceOps fresh e 0).1.eval r = some true
  | map computed, A =>
    (markJoins (replaceAll fresh computed 0).2 A).map fun r =>
      r.merge (computedColumns Replaced.eval (replaceAll fresh computed 0).1 r)

end

end GengoDB.ImplicitJoins
