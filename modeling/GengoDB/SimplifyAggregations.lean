/-
Expressions over aggregates (`Transforms/SimplifyAggregations.cpp`).

An aggregation may return aggregates and expressions over them. The pass leaves
the aggregates to it and computes the expressions in a map behind it, from new
columns with the aggregates they use. The expressions are sorted by their place
in the block before they are copied, but the columns they belong to are not.
-/
import Mathlib.Algebra.Order.Ring.Nat
import Mathlib.Data.List.Induction
import Mathlib.Data.List.Sort

namespace GengoDB.SimplifyAggregations

open List

variable {C R V : Type}

/-- An operation of the aggregation's block: over the rows of a group, or over
the results of other operations, which are given by their places. -/
inductive Op (R V : Type)
  | aggr (f : List R → V)
  | expr (args : List ℕ) (f : List (Option V) → V)

/-- The block, and the values it returns for the columns. -/
structure Aggregation (C R V : Type) where
  ops : List (Op R V)
  returned : List (C × ℕ)

def Op.isAggregate : Op R V → Bool
  | aggr _ => true
  | expr _ _ => false

def Op.uses (i : ℕ) : Op R V → Bool
  | aggr _ => false
  | expr args _ => i ∈ args

def Op.eval (rows : List R) (vals : List V) : Op R V → V
  | aggr f => f rows
  | expr args f => f (args.map (vals[·]?))

/-- In the map, an aggregate is read from its new column. -/
def Op.evalInMap (getColumn : ℕ → Option V) (vals : List (Option V)) : Op R V → Option V
  | aggr _ => getColumn vals.length
  | expr args f => some (f (args.map fun i => vals[i]?.join))

/-- The results of the operations, one after the other. -/
def results {α : Type} (eval : List α → Op R V → α) (ops : List (Op R V)) : List α :=
  ops.foldl (fun vals op => vals ++ [eval vals op]) []

namespace Aggregation

variable (a : Aggregation C R V) (rows : List R)

def isDirectAggregate (i : ℕ) : Bool := (a.ops[i]?).any Op.isAggregate

def value (i : ℕ) : Option V := (results (Op.eval rows) a.ops)[i]?

/-- A column with the value returned for it. -/
def own (r : C × ℕ) : C × Option V := (r.1, a.value rows r.2)

/-- The columns that are computed. -/
def run : List (C × Option V) := a.returned.map (a.own rows)

/-! ## The pass -/

def computed : List (C × ℕ) := a.returned.filter fun r => a.isDirectAggregate r.2

def forMap : List (C × ℕ) := a.returned.filter fun r => !a.isDirectAggregate r.2

def valsForMap : List ℕ := (a.forMap.map Prod.snd).insertionSort (· ≤ ·)

/-- The new column of an aggregate, which it has if an operation uses it. -/
def getColumn (i : ℕ) : Option V := if a.ops.any (·.uses i) then a.value rows i else none

def mapValue (i : ℕ) : Option V := ((results (Op.evalInMap (a.getColumn rows)) a.ops)[i]?).join

/-- The columns of the aggregation and of the map behind it. -/
def runSplit : List (C × Option V) :=
  a.computed.map (a.own rows) ++ (a.forMap.map Prod.fst).zip (a.valsForMap.map (a.mapValue rows))

end Aggregation

/-! ## Values in the map -/

section
variable {α : Type} (eval : List α → Op R V → α)

theorem results_append (ops : List (Op R V)) (op : Op R V) :
    results eval (ops ++ [op]) = results eval ops ++ [eval (results eval ops) op] := by
  rw [results, foldl_append]
  rfl

theorem length_results (ops : List (Op R V)) : (results eval ops).length = ops.length := by
  induction ops using reverseRecOn with
  | nil => rfl
  | append_singleton ops op ih => rw [results_append, length_append, length_append, ih]; rfl

theorem getElem?_results {pre : List (Op R V)} {i : ℕ} (hi : i < pre.length) (rest : List (Op R V)) :
    (results eval (pre ++ rest))[i]? = (results eval pre)[i]? := by
  induction rest using reverseRecOn with
  | nil => rw [append_nil]
  | append_singleton rest op ih =>
    rw [← append_assoc, results_append, getElem?_append_left, ih]
    rw [length_results, length_append]
    omega

theorem getElem?_results_last (pre : List (Op R V)) (op : Op R V) :
    (results eval (pre ++ [op]))[pre.length]? = some (eval (results eval pre) op) := by
  rw [results_append, ← length_results eval pre, getElem?_concat_length]

end

variable {a : Aggregation C R V} {rows : List R}

/-- The copies have the same values, and so have the aggregates they use. -/
theorem results_evalInMap {pre rest : List (Op R V)} (h : a.ops = pre ++ rest) {i : ℕ}
    (hi : (pre[i]?).any Op.isAggregate = false ∨ a.ops.any (·.uses i)) :
    ((results (Op.evalInMap (a.getColumn rows)) pre)[i]?).join = (results (Op.eval rows) pre)[i]? := by
  induction pre using reverseRecOn generalizing rest i with
  | nil => rfl
  | append_singleton pre op ih =>
    rw [append_assoc] at h
    rcases Nat.lt_trichotomy i pre.length with hlt | rfl | hgt
    · rw [getElem?_results _ hlt, getElem?_results _ hlt]
      rw [getElem?_append_left hlt] at hi
      exact ih h hi
    · rw [getElem?_results_last, getElem?_results_last]
      cases op with
      | aggr f =>
        have hused : a.ops.any (·.uses pre.length) := hi.resolve_left (by simp [Op.isAggregate])
        show a.getColumn rows (results _ pre).length = _
        rw [length_results, Aggregation.getColumn, if_pos hused, Aggregation.value, h, ← append_assoc,
          getElem?_results _ (by simp), getElem?_results_last]
      | expr args f =>
        refine congrArg some (congrArg f (map_congr_left fun j hj => ih h (.inr ?_)))
        rw [h]
        simp [Op.uses, hj]
    · rw [getElem?_eq_none (by simp [length_results]; omega), getElem?_eq_none (by simp [length_results]; omega)]
      rfl

theorem mapValue_eq {i : ℕ} (hi : a.isDirectAggregate i = false) : a.mapValue rows i = a.value rows i :=
  results_evalInMap (append_nil a.ops).symm (.inl hi)

/-- **Every column holds its own value** exactly if the values of the
expressions, sorted by their places, are the same list; so it does if they are
returned in the order of the block. -/
theorem runSplit_iff (a : Aggregation C R V) (rows : List R) :
    ((a.computed ++ a.forMap).map (a.own rows)).Perm (a.run rows) ∧
    (a.runSplit rows = (a.computed ++ a.forMap).map (a.own rows) ↔
      a.valsForMap.map (a.value rows) = (a.forMap.map Prod.snd).map (a.value rows)) ∧
    ((a.forMap.map Prod.snd).Pairwise (· ≤ ·) → a.runSplit rows = (a.computed ++ a.forMap).map (a.own rows)) := by
  have hmap : a.valsForMap.map (a.mapValue rows) = a.valsForMap.map (a.value rows) := by
    refine map_congr_left fun i hi => mapValue_eq ?_
    obtain ⟨r, hr, rfl⟩ := mem_map.1 ((mem_insertionSort _).1 hi)
    simpa using (mem_filter.1 hr).2
  have hzip : a.forMap.map (a.own rows) =
      (a.forMap.map Prod.fst).zip ((a.forMap.map Prod.snd).map (a.value rows)) := by
    rw [List.map_map, zip_map']
    rfl
  have hiff : a.runSplit rows = (a.computed ++ a.forMap).map (a.own rows) ↔
      a.valsForMap.map (a.value rows) = (a.forMap.map Prod.snd).map (a.value rows) := by
    rw [Aggregation.runSplit, hmap, map_append, append_right_inj, hzip]
    refine ⟨fun h => ?_, fun h => by rw [h]⟩
    have hsnd := congrArg (map Prod.snd) h
    rwa [map_snd_zip (by simp [Aggregation.valsForMap]), map_snd_zip (by simp)] at hsnd
  refine ⟨(filter_append_perm ..).map _, hiff, fun hsorted => hiff.2 ?_⟩
  rw [Aggregation.valsForMap, hsorted.insertionSort_eq]

/-- `2 * sum` and `3 * sum`, the second one first. -/
theorem runSplit_swapped :
    let a : Aggregation ℕ ℕ ℕ := ⟨[.aggr sum, .expr [0] fun v => 2 * (v.map (·.getD 0)).sum,
      .expr [0] fun v => 3 * (v.map (·.getD 0)).sum], [(0, 2), (1, 1)]⟩
    a.run [1] = [(0, some 3), (1, some 2)] ∧ a.runSplit [1] = [(0, some 2), (1, some 3)] := by
  decide

end GengoDB.SimplifyAggregations
