/-
Functional dependencies of query plans (`getFDs`).

A plan reports dependencies between its columns, and a key: columns on which
no two of its rows agree. Base tables report their primary key, aggregations
what they group by; selections and inner joins report columns they compare for
equality. The other operators repeat what their inputs report (`detail::getFDs`).

Rows keep the values of columns that an operator drops, since what is reported
for these stays in the list and is used by `expand`. Left out are
`CollectionJoinOp`, which has no lowering, and `NestedOp`, whose rows come from
code in its region.
-/
import Mathlib.Data.Finset.Card
import Mathlib.Data.List.Pairwise
import GengoDB.Rows

namespace GengoDB.Dependencies

open Finset

variable {C V : Type}

/-! ## Sets of dependencies -/

structure FunctionalDependencies (C : Type) where
  fds : List (Finset C × Finset C) := []
  key : Option (Finset C) := none

namespace FunctionalDependencies

/-- The other's dependencies, without its key. -/
def insertAll (d other : FunctionalDependencies C) : FunctionalDependencies C := { d with fds := d.fds ++ other.fds }

def insert (d : FunctionalDependencies C) (left right : Finset C) : FunctionalDependencies C :=
  { d with fds := d.fds ++ [(left, right)] }

/-- Two columns that determine each other. -/
def insertEqual (d : FunctionalDependencies C) (left right : C) : FunctionalDependencies C :=
  (d.insert {left} {right}).insert {right} {left}

variable [DecidableEq C]

def round (d : FunctionalDependencies C) (s : Finset C) : Finset C :=
  d.fds.foldl (fun s fd => if fd.1 ⊆ s then s ∪ fd.2 else s) s

def expandFrom (d : FunctionalDependencies C) : ℕ → Finset C → Finset C
  | 0, s => s
  | n + 1, s => if s.card < (d.round s).card then d.expandFrom n (d.round s) else d.round s

/-- A round that adds columns applies some dependency for the first time, so the
loop ends within one round more than there are dependencies. -/
def expand (d : FunctionalDependencies C) (available : Finset C) : Finset C := d.expandFrom (d.fds.length + 1) available

end FunctionalDependencies

/-! ## What they say about rows -/

def Agree (X : Finset C) (r s : Row C V) : Prop := ∀ c ∈ X, r c = s c

instance [DecidableEq C] [DecidableEq V] (X : Finset C) (r s : Row C V) : Decidable (Agree X r s) :=
  inferInstanceAs (Decidable (∀ c ∈ X, r c = s c))

def Determines (rows : List (Row C V)) (X Y : Finset C) : Prop :=
  ∀ r ∈ rows, ∀ s ∈ rows, Agree X r s → Agree Y r s

/-- No two rows agree on the columns. -/
def DuplicateFree (rows : List (Row C V)) (X : Finset C) : Prop := rows.Pairwise fun r s => ¬ Agree X r s

/-! ## Plans -/

inductive Pred (C V : Type)
  | eq (left right : C)
  | other (fn : Row C V → Bool)

section

variable [DecidableEq C]

def Pred.holds [DecidableEq V] : Pred C V → Row C V → Bool
  | .eq left right, r => (r left).isSome && r left == r right
  | .other fn, r => fn r

/-- The columns of an equality determine each other. -/
def FunctionalDependencies.insertPred (d : FunctionalDependencies C) : Pred C V → FunctionalDependencies C
  | .eq left right => d.insertEqual left right
  | .other _ => d

inductive KeyKind
  | plain
  | nullsEqual
  | bindingCompatible
  deriving DecidableEq

/-- An entry of `leftHash`, `rightHash`, `nullsEqual` and `bindingCompatible`. -/
structure HashKey (C : Type) where
  left : C
  right : C
  kind : KeyKind

def HashKey.matches [DecidableEq V] (k : HashKey C) (l r : Row C V) : Bool :=
  match k.kind with
  | .plain => (l k.left).isSome && l k.left == r k.right
  | .nullsEqual => l k.left == r k.right
  | .bindingCompatible => (l k.left).isNone || (r k.right).isNone || l k.left == r k.right

/-- The joined row, whose right columns are `R`; a null in a binding-compatible
key of the left side takes the value of the right one. -/
def joinRow (keys : List (HashKey C)) (R : Finset C) (l r : Row C V) : Row C V := fun c =>
  if c ∈ R then r c
  else match keys.find? fun k => k.kind = .bindingCompatible ∧ k.left = c with
    | some k => (l c).or (r k.right)
    | none => l c

/-- A row with the values of another one in some columns. -/
def override (cols : Finset C) (r s : Row C V) : Row C V := fun c => if c ∈ cols then s c else r c

/-- The operators over one input that report what it does. `rename` has pairs
of a new column and the one it was; `expansion` are the graph operators, which
add columns for everything they match. -/
inductive UnaryOp (C V : Type)
  | map (computed : Finset C) (fn : Row C V → Row C V)
  | limit (maxRows : ℕ)
  | offset (rows : ℕ)
  | sort (le : Row C V → Row C V → Bool)
  | topK (maxRows : ℕ) (le : Row C V → Row C V → Bool)
  | projection (distinct : Bool) (cols : Finset C)
  | rename (columns : List (C × C))
  | window (partitionBy computed : Finset C) (le : Row C V → Row C V → Bool) (fn : List (Row C V) → ℕ → Row C V)
  | tmp
  | expansion (created : Finset C) (found : Row C V → List (Row C V))

namespace UnaryOp

def created : UnaryOp C V → Finset C
  | map computed _ | window _ computed _ _ => computed
  | rename columns => (columns.map (·.1)).toFinset
  | expansion created _ => created
  | limit _ | offset _ | sort _ | topK _ _ | projection _ _ | tmp => ∅

def available (child : Finset C) : UnaryOp C V → Finset C
  | projection _ cols => cols
  | rename columns => child \ (columns.map (·.2)).toFinset ∪ (columns.map (·.1)).toFinset
  | op => child ∪ op.created

def rows [DecidableEq V] (input : List (Row C V)) : UnaryOp C V → List (Row C V)
  | map computed fn => input.map fun r => override computed r (fn r)
  | limit maxRows => input.take maxRows
  | offset rows => input.drop rows
  | sort le => input.mergeSort le
  | topK maxRows le => (input.mergeSort le).take maxRows
  | projection distinct cols => if distinct then input.pwFilter fun r s => ¬ Agree cols r s else input
  | rename columns => input.map fun r c =>
    match columns.find? (·.1 = c) with
    | some column => r column.2
    | none => r c
  | window partitionBy computed le fn =>
    (input.pwFilter fun r s => ¬ Agree partitionBy r s).flatMap fun first =>
      let partition := (input.filter (Agree partitionBy first ·)).mergeSort le
      partition.zipIdx.map fun (r, i) => override computed r (fn partition i)
  | tmp => input
  | expansion created found => input.flatMap fun r => (found r).map (override created r)

end UnaryOp

inductive SetOperation
  | union
  | intersect
  | except
  deriving DecidableEq

/-- The operators over two inputs that report what they do. A mapping has new
columns and the ones they were, for a set operation one of each side if there is
one; `outerJoin` is also `SingleJoinOp`, which has the same rows, and `merged`
are columns with the first value of two that is not null. -/
inductive BinaryOp (C V : Type)
  | crossProduct
  | outerJoin (pred : Row C V → Row C V → Bool) (mapping : List (C × C)) (merged : List (C × C × C))
  | fullOuterJoin (pred : Row C V → Row C V → Bool) (mapping : List (C × C))
  | markJoin (mark : C) (value : Row C V → List (Row C V) → Option V)
  | setOperation (op : SetOperation) (distinct : Bool) (mapping : List (C × Option C × Option C))

namespace BinaryOp

def created : BinaryOp C V → Finset C
  | crossProduct => ∅
  | outerJoin _ mapping merged => (mapping.map (·.1)).toFinset ∪ (merged.map (·.1)).toFinset
  | fullOuterJoin _ mapping => (mapping.map (·.1)).toFinset
  | markJoin mark _ => {mark}
  | setOperation _ _ mapping => (mapping.map (·.1)).toFinset

def available (left right : Finset C) : BinaryOp C V → Finset C
  | crossProduct => left ∪ right
  | outerJoin pred mapping merged => left ∪ (outerJoin pred mapping merged).created
  | fullOuterJoin _ mapping => (mapping.map (·.1)).toFinset
  | markJoin mark _ => left ∪ {mark}
  | setOperation _ _ mapping => (mapping.map (·.1)).toFinset

/-- Whether rows have the columns of the left input. -/
def keepsLeft : BinaryOp C V → Bool
  | crossProduct | outerJoin .. | markJoin .. => true
  | fullOuterJoin .. | setOperation .. => false

/-- Whether rows have the columns of the right input. -/
def keepsRight : BinaryOp C V → Bool
  | crossProduct => true
  | outerJoin .. | markJoin .. | fullOuterJoin .. | setOperation .. => false

/-- The columns of a mapping, from the row of one side. -/
def mapped (mapping : List (C × Option C)) (r : Row C V) : Row C V := fun c =>
  (mapping.find? (·.1 = c)).bind fun m => m.2.bind r

/-- A row of an outer join; `b` is its right row, if there is one. -/
def outerRow (mapping : List (C × C)) (merged : List (C × C × C)) (a : Row C V) (b : Option (Row C V)) : Row C V :=
  let right : Row C V := fun c => (mapping.find? (·.1 = c)).bind fun m => b.bind (· m.2)
  fun c =>
    if c ∈ mapping.map (·.1) then right c
    else match merged.find? (·.1 = c) with
      | some m => (a m.2.1).or (right m.2.2)
      | none => a c

/-- The rows, where `R` are the columns of the right input. -/
def rows [DecidableEq V] (R : Finset C) (left right : List (Row C V)) : BinaryOp C V → List (Row C V)
  | crossProduct => left.flatMap fun a => right.map fun b => override R a b
  | outerJoin pred mapping merged => left.flatMap fun a =>
    let found := right.filter (pred a)
    if found.isEmpty then [outerRow mapping merged a none] else found.map fun b => outerRow mapping merged a (some b)
  | fullOuterJoin pred mapping =>
    let row (r : Row C V) := mapped (mapping.map fun m => (m.1, some m.2)) r
    (left.flatMap fun a => (right.filter (pred a)).map fun b => row (override R a b)) ++
      (left.filter fun a => !right.any (pred a)).map row ++ (right.filter fun b => !left.any (pred · b)).map row
  | markJoin mark value => left.map fun a => override {mark} a fun _ => value a right
  | setOperation op distinct mapping =>
    let same (r s : Row C V) : Bool := Agree (mapping.map (·.1)).toFinset r s
    let l := left.map (mapped (mapping.map fun m => (m.1, m.2.1)))
    let r := right.map (mapped (mapping.map fun m => (m.1, m.2.2)))
    -- the n-th of equal rows is kept by whether there are n of them on the right
    let within (x : Row C V × ℕ) : Bool := (l.take x.2).countP (same x.1) < r.countP (same x.1)
    let all := match op with
      | .union => l ++ r
      | .intersect => (l.zipIdx.filter within).map (·.1)
      | .except => if distinct then l.filter (fun x => !r.any (same x)) else (l.zipIdx.filter (!within ·)).map (·.1)
    if distinct then all.pwFilter fun r s => ¬ same r s else all

end BinaryOp

inductive GroupJoinBehavior
  | inner
  | outer
  deriving DecidableEq

/-- An aggregation of a join, by the pairs of columns that are joined. -/
structure GroupJoin (C V : Type) where
  behavior : GroupJoinBehavior
  keys : List (C × C)
  pred : Row C V → Row C V → Bool
  computed : Finset C
  aggregates : List (Row C V) → Row C V

namespace GroupJoin

variable (g : GroupJoin C V)

def leftCols : Finset C := (g.keys.map (·.1)).toFinset

def rightCols : Finset C := (g.keys.map (·.2)).toFinset

/-- The rows go together, with null equal to null in the keys. -/
def joins [DecidableEq V] (a b : Row C V) : Bool := g.keys.all (fun k => a k.1 == b k.2) && g.pred a b

/-- The row of a group, for a row of the left input with its key; `R` are the
columns of the right input. The keys of the right input are renamed from those
of the left one. -/
def groupRow (R : Finset C) (a : Row C V) (found : List (Row C V)) : Row C V := fun c =>
  if c ∈ g.computed then g.aggregates found c
  else match g.keys.find? (·.2 = c) with
    | some k => a k.1
    | none => if c ∈ R then found.head?.bind (· c) else a c

def rows [DecidableEq V] (R : Finset C) (left right : List (Row C V)) : List (Row C V) :=
  (left.pwFilter fun a b => ¬ Agree g.leftCols a b).filterMap fun a =>
    let found := right.filter (g.joins a)
    if g.behavior = .inner ∧ found = [] then none else some (g.groupRow R a found)

/-- Dependencies are reported that start from keys of the right input. -/
def ReportsKeys (right : FunctionalDependencies C) : Prop := ∃ fd ∈ right.fds, fd.1 ⊆ g.rightCols

instance (right : FunctionalDependencies C) : Decidable (g.ReportsKeys right) :=
  inferInstanceAs (Decidable (∃ fd ∈ right.fds, fd.1 ⊆ g.rightCols))

end GroupJoin

/-- `mapping` of a base table are its columns by name; `source` are the other
operators without inputs. The aggregates of a group are those of its rows. -/
inductive Plan (C V : Type)
  | baseTable (mapping : List (String × C)) (primaryKey : Finset String) (table : List (String → Option V))
  | source (created : Finset C) (table : List (Row C V))
  | selection (pred : Pred C V) (child : Plan C V)
  | aggregation (groupBy computed : Finset C) (aggregates : List (Row C V) → Row C V) (child : Plan C V)
  | semiJoin (anti : Bool) (pred : Row C V → Row C V → Bool) (left right : Plan C V)
  | innerJoin (keys : List (HashKey C)) (pred : Pred C V) (left right : Plan C V)
  | unary (op : UnaryOp C V) (child : Plan C V)
  | binary (op : BinaryOp C V) (left right : Plan C V)
  | groupJoin (g : GroupJoin C V) (left right : Plan C V)

namespace Plan

def available : Plan C V → Finset C
  | baseTable mapping _ _ => (mapping.map (·.2)).toFinset
  | source created _ => created
  | selection _ child => child.available
  | aggregation groupBy computed _ _ => groupBy ∪ computed
  | semiJoin _ _ left _ => left.available
  | innerJoin _ _ left right => left.available ∪ right.available
  | unary op child => op.available child.available
  | binary op left right => op.available left.available right.available
  | groupJoin g _ _ => g.computed ∪ g.leftCols ∪ g.rightCols

/-- All columns of a plan. -/
def columns : Plan C V → Finset C
  | baseTable mapping _ _ => (mapping.map (·.2)).toFinset
  | source created _ => created
  | selection _ child => child.columns
  | aggregation _ computed _ child => child.columns ∪ computed
  | semiJoin _ _ left right => left.columns ∪ right.columns
  | innerJoin _ _ left right => left.columns ∪ right.columns
  | unary op child => child.columns ∪ op.created
  | binary op left right => left.columns ∪ right.columns ∪ op.created
  | groupJoin g left right => left.columns ∪ right.columns ∪ g.computed

/-- `newFds` of an inner join. -/
def joinFds (keys : List (HashKey C)) (pred : Pred C V) (left right : FunctionalDependencies C) :
    FunctionalDependencies C :=
  let hashed := keys.foldl (fun d k => d.insertEqual k.left k.right) ({} : FunctionalDependencies C)
  { fds := (hashed.insertPred pred).fds ++ left.fds ++ right.fds }

def getFDs : Plan C V → FunctionalDependencies C
  | baseTable mapping primaryKey _ =>
    let pk := ((mapping.filter (·.1 ∈ primaryKey)).map (·.2)).toFinset
    if primaryKey ≠ ∅ ∧ pk.card = primaryKey.card then
      { fds := [(pk, (mapping.map (·.2)).toFinset \ pk)], key := some pk }
    else {}
  | source _ _ => {}
  | selection pred child => child.getFDs.insertPred pred
  | aggregation groupBy _ _ child =>
    if groupBy = ∅ then child.getFDs else { child.getFDs with key := some groupBy }
  | semiJoin _ _ left _ => left.getFDs
  | innerJoin keys pred left right =>
    let newFds := joinFds keys pred left.getFDs right.getFDs
    match left.getFDs.key, right.getFDs.key with
    | some leftKey, some rightKey =>
      if rightKey ⊆ newFds.expand leftKey then { newFds with key := some leftKey }
      else if leftKey ⊆ newFds.expand rightKey then { newFds with key := some rightKey }
      else newFds
    | _, _ => newFds
  | unary _ child => ({} : FunctionalDependencies C).insertAll child.getFDs
  | binary _ left right | groupJoin _ left right =>
    (({} : FunctionalDependencies C).insertAll left.getFDs).insertAll right.getFDs

/-- The columns that the rows still have a value for: those that are available,
and those that operators below dropped. -/
def live : Plan C V → Finset C
  | baseTable mapping _ _ => (mapping.map (·.2)).toFinset
  | source created _ => created
  | selection _ child => child.live
  | aggregation _ computed _ child => child.live ∪ computed
  | semiJoin _ _ left _ => left.live
  | innerJoin _ _ left right => left.live ∪ right.live
  | unary op child => child.live ∪ op.created
  | binary op left right =>
    (if op.keepsLeft then left.live else ∅) ∪ (if op.keepsRight then right.live else ∅) ∪ op.created
  | groupJoin g left right =>
    let kept := if g.behavior = .inner ∨ g.ReportsKeys right.getFDs then right.live else right.live ∩ g.rightCols
    left.live ∪ kept ∪ g.computed

/-- The rows. A group is one of the rows with its values; without columns to
group by there is one, also for no rows. -/
def rows [DecidableEq V] : Plan C V → List (Row C V)
  | baseTable mapping _ table => table.map fun t c => (mapping.find? (·.2 = c)).bind fun m => t m.1
  | source _ table => table
  | selection pred child => child.rows.filter pred.holds
  | aggregation groupBy computed aggregates child =>
    let group (r : Row C V) : Row C V := fun c =>
      if c ∈ computed then aggregates (child.rows.filter (Agree groupBy r ·)) c else r c
    if groupBy = ∅ then [group Row.empty] else (child.rows.pwFilter fun r s => ¬ Agree groupBy r s).map group
  | semiJoin anti pred left right => left.rows.filter fun l => (right.rows.any (pred l)) != anti
  | innerJoin keys pred left right =>
    (left.rows.flatMap fun l => (right.rows.filter fun r => keys.all (·.matches l r)).map
      (joinRow keys right.live l)).filter pred.holds
  | unary op child => op.rows child.rows
  | binary op left right => op.rows right.live left.rows right.rows
  | groupJoin g left right => g.rows right.live left.rows right.rows

/-- Every operator of the plan has the property. -/
def All (p : Plan C V → Prop) : Plan C V → Prop
  | baseTable mapping primaryKey table => p (baseTable mapping primaryKey table)
  | source created table => p (source created table)
  | selection pred child => p (selection pred child) ∧ child.All p
  | aggregation groupBy computed aggregates child => p (aggregation groupBy computed aggregates child) ∧ child.All p
  | semiJoin anti pred left right => p (semiJoin anti pred left right) ∧ left.All p ∧ right.All p
  | innerJoin keys pred left right => p (innerJoin keys pred left right) ∧ left.All p ∧ right.All p
  | unary op child => p (unary op child) ∧ child.All p
  | binary op left right => p (binary op left right) ∧ left.All p ∧ right.All p
  | groupJoin g left right => p (groupJoin g left right) ∧ left.All p ∧ right.All p

/-- Operators use columns of their inputs, and the columns they create are new. -/
def WellFormed : Plan C V → Prop := All fun
  | baseTable mapping _ _ => (mapping.map (·.1)).Nodup ∧ (mapping.map (·.2)).Nodup
  | source .. => True
  | selection pred child => ∀ l r, pred = .eq l r → l ∈ child.available ∧ r ∈ child.available
  | aggregation groupBy computed _ child => groupBy ⊆ child.available ∧ Disjoint computed child.columns
  | semiJoin .. => True
  | innerJoin keys pred left right => Disjoint left.columns right.columns ∧
    (∀ k ∈ keys, k.left ∈ left.available ∧ k.right ∈ right.available) ∧
    ∀ l r, pred = .eq l r → l ∈ left.available ∪ right.available ∧ r ∈ left.available ∪ right.available
  | unary op child => Disjoint op.created child.columns ∧
    ∀ distinct cols, op = .projection distinct cols → cols ⊆ child.available
  | binary op left right => Disjoint left.columns right.columns ∧ Disjoint op.created (left.columns ∪ right.columns)
  | groupJoin g left right => Disjoint left.columns right.columns ∧ Disjoint g.computed (left.columns ∪ right.columns) ∧
    g.leftCols ⊆ left.available ∧ g.rightCols ⊆ right.available

end Plan

end

end GengoDB.Dependencies
