/-
Pushing a selection through a union (`Pushdown::pushdown`, the case of
`UnionOp`).

A union creates its columns from columns of its inputs; a column may have no
source in an input, and is null there. The selection is copied for each input,
and every column its predicate reads is replaced by the source of that column
in the input. A column without a source is left as it is, a column of the
union's output that the input does not have: such a plan has no meaning, where
the selection above the union just saw a null. So the plan is kept exactly if
every column the predicate reads has a source on both sides
(`pushdownUnion_eq_iff`).
-/
import Mathlib.Data.Fintype.Basic
import GengoDB.JoinOperators

namespace GengoDB.RelAlg

variable {C V : Type}

/-! ## Unions -/

/-- A column a union creates, and its sources. -/
structure UnionColumn (C : Type) where
  output : C
  left : Option C
  right : Option C

inductive Side
  | left
  | right

def UnionColumn.source (m : UnionColumn C) : Side → Option C
  | .left => m.left
  | .right => m.right

/-- An input: its columns and its rows. -/
structure UnionInput (C V : Type) where
  columns : List C
  rows : Multiset (Row C V)

/-- A union of two inputs. What a column is made of is a column of the input; the
columns created are new, and different. -/
structure UnionOp (C V : Type) where
  setSemantic : SetSemantic
  mapping : List (UnionColumn C)
  input : Side → UnionInput C V
  available : ∀ side, ∀ m ∈ mapping, ∀ c ∈ m.source side, c ∈ (input side).columns
  fresh : ∀ side, ∀ m ∈ mapping, m.output ∉ (input side).columns
  nodup : (mapping.map (·.output)).Nodup

namespace UnionOp

def outputs (u : UnionOp C V) : List C := u.mapping.map (·.output)

variable [DecidableEq C]

/-- `colMapping`: the source of a column in an input. -/
def colMapping (u : UnionOp C V) (side : Side) (c : C) : Option C :=
  (u.mapping.find? (·.output = c)).bind fun m => m.source side

/-- A row of an input as a row of the union. -/
def mapRow (u : UnionOp C V) (side : Side) (r : Row C V) : Row C V := fun c => (u.colMapping side c).bind r

/-- The rows of the union for rows of its inputs. -/
def collect [DecidableEq (Row C V)] (u : UnionOp C V) (rows : Side → Multiset (Row C V)) : Multiset (Row C V) :=
  let all := (rows .left).map (u.mapRow .left) + (rows .right).map (u.mapRow .right)
  match u.setSemantic with
  | .all => all
  | .distinct => all.dedup

end UnionOp

/-! ## Selections -/

/-- A predicate on rows whose columns have other names. -/
def Lambda.substitute (f : Lambda C V) (rename : C → C) : Lambda C V where
  used := f.used.map rename
  fn r := f.fn fun c => r (rename c)
  reads _ _ h := f.reads _ _ fun c hc => h (rename c) (List.mem_map_of_mem hc)

/-- A selection over a stream with the given columns; `none` if the predicate
reads a column the stream does not have. -/
def select [DecidableEq C] (f : Lambda C V) (columns : List C) (rows : Multiset (Row C V)) :
    Option (Multiset (Row C V)) :=
  if ∀ c ∈ f.used, c ∈ columns then some (rows.filter fun r => f.fn r = some true) else none

section

variable [DecidableEq C] [DecidableEq (Row C V)]

def selectUnion (f : Lambda C V) (u : UnionOp C V) : Option (Multiset (Row C V)) :=
  select f u.outputs (u.collect fun side => (u.input side).rows)

/-- The selection on an input, its columns replaced where they have a source. -/
def pushedSelection (f : Lambda C V) (u : UnionOp C V) (side : Side) : Lambda C V :=
  f.substitute fun c => (u.colMapping side c).getD c

def pushdownUnion (f : Lambda C V) (u : UnionOp C V) : Option (Multiset (Row C V)) := do
  let left ← select (pushedSelection f u .left) (u.input .left).columns (u.input .left).rows
  let right ← select (pushedSelection f u .right) (u.input .right).columns (u.input .right).rows
  return u.collect fun
    | .left => left
    | .right => right

end

/-! ## When the plan is kept -/

section

variable [DecidableEq C] {f : Lambda C V} {u : UnionOp C V} {side : Side} {c : C}

theorem UnionOp.colMapping_mem {s : C} (hs : u.colMapping side c = some s) : s ∈ (u.input side).columns := by
  obtain ⟨m, hm, hsource⟩ := Option.bind_eq_some_iff.1 hs
  exact u.available side m (List.mem_of_find?_eq_some hm) s hsource

/-- A predicate that reads columns with sources only can be asked of the input's
rows. -/
theorem fn_pushedSelection (hmapped : ∀ c ∈ f.used, (u.colMapping side c).isSome) (r : Row C V) :
    (pushedSelection f u side).fn r = f.fn (u.mapRow side r) := by
  refine f.reads _ _ fun c hc => ?_
  obtain ⟨s, hs⟩ := Option.isSome_iff_exists.1 (hmapped c hc)
  simp [UnionOp.mapRow, hs]

theorem select_pushedSelection (hmapped : ∀ c ∈ f.used, (u.colMapping side c).isSome) :
    select (pushedSelection f u side) (u.input side).columns (u.input side).rows =
      some ((u.input side).rows.filter fun r => f.fn (u.mapRow side r) = some true) := by
  have havailable : ∀ c ∈ (pushedSelection f u side).used, c ∈ (u.input side).columns := by
    intro c hc
    obtain ⟨d, hd, rfl⟩ := List.mem_map.1 hc
    obtain ⟨s, hs⟩ := Option.isSome_iff_exists.1 (hmapped d hd)
    rw [hs]
    exact UnionOp.colMapping_mem hs
  rw [select, if_pos havailable]
  simp only [fn_pushedSelection hmapped]

/-- A column without a source stays, and is not there. -/
theorem select_pushedSelection_eq_none (hc : c ∈ f.used) (hout : c ∈ u.outputs) (hnone : u.colMapping side c = none) :
    select (pushedSelection f u side) (u.input side).columns (u.input side).rows = none := by
  have hused : c ∈ (pushedSelection f u side).used := List.mem_map.2 ⟨c, hc, by rw [hnone, Option.getD_none]⟩
  refine if_neg fun hall => ?_
  obtain ⟨m, hm, rfl⟩ := List.mem_map.1 hout
  exact u.fresh side m hm (hall _ hused)

variable [DecidableEq (Row C V)]

/-- A selection of the union's rows is one of the inputs' rows. -/
theorem UnionOp.filter_collect (P : Row C V → Prop) [DecidablePred P] (rows : Side → Multiset (Row C V)) :
    (u.collect rows).filter P = u.collect fun side => (rows side).filter fun r => P (u.mapRow side r) := by
  have hall : ((rows .left).map (u.mapRow .left) + (rows .right).map (u.mapRow .right)).filter P =
      ((rows .left).filter fun r => P (u.mapRow .left r)).map (u.mapRow .left) +
        ((rows .right).filter fun r => P (u.mapRow .right r)).map (u.mapRow .right) := by
    rw [Multiset.filter_add, Multiset.filter_map, Multiset.filter_map]
    rfl
  unfold UnionOp.collect
  cases u.setSemantic with
  | all => exact hall
  | distinct =>
    rw [← hall]
    ext r
    simp only [Multiset.count_filter, Multiset.count_dedup, Multiset.mem_filter]
    by_cases hr : P r
    · simp only [hr, if_true, and_true]
    · simp only [hr, if_false, and_false]

/-- **Pushing a selection through a union.** For a predicate on the columns of
the union, the pushed plan gives the rows of the original one exactly if every
column the predicate reads has a source in both inputs. -/
theorem pushdownUnion_eq_iff (hused : ∀ c ∈ f.used, c ∈ u.outputs) :
    pushdownUnion f u = selectUnion f u ↔ ∀ side, ∀ c ∈ f.used, (u.colMapping side c).isSome = true := by
  have horiginal : selectUnion f u =
      some ((u.collect fun side => (u.input side).rows).filter fun r => f.fn r = some true) := if_pos hused
  rw [horiginal]
  constructor
  · intro h side c hc
    by_contra hnone
    rw [Option.not_isSome_iff_eq_none] at hnone
    have hfail := select_pushedSelection_eq_none hc (hused c hc) hnone
    unfold pushdownUnion at h
    cases side with
    | left =>
      rw [hfail] at h
      cases h
    | right =>
      rw [hfail] at h
      cases hleft : select (pushedSelection f u .left) (u.input .left).columns (u.input .left).rows with
      | none | some left =>
        rw [hleft] at h
        cases h
  · intro hmapped
    rw [pushdownUnion, select_pushedSelection (hmapped .left), select_pushedSelection (hmapped .right),
      UnionOp.filter_collect]
    simp only [Option.bind_eq_bind, Option.bind_some, Option.pure_def, Option.some.injEq]
    congr 1
    funext side
    cases side <;> rfl

end

/-! ## A union as SPARQL makes it -/

/-- `?x` and `?z` are bound on the left, `?y` and `?z` on the right: columns 0
and 1 of the left input, 2 and 3 of the right one, 4, 5 and 6 of the union. -/
def sparqlUnion : UnionOp (Fin 7) ℕ where
  setSemantic := .all
  mapping := [⟨4, some 0, none⟩, ⟨5, none, some 2⟩, ⟨6, some 1, some 3⟩]
  input
    | .left => ⟨[0, 1], {fun c => if c = 0 then some 1 else if c = 1 then some 7 else none}⟩
    | .right => ⟨[2, 3], {fun c => if c = 2 then some 2 else if c = 3 then some 8 else none}⟩
  available side := by cases side <;> simp [UnionColumn.source]
  fresh side := by cases side <;> simp
  nodup := by simp

/-- `BOUND` of a column. -/
def bound (c : Fin 7) : Lambda (Fin 7) ℕ where
  used := [c]
  fn r := some (r c).isSome
  reads r s h := by rw [h c (by simp)]

/-- The test of a column with two sources can be pushed. -/
theorem pushdownUnion_bound : pushdownUnion (bound 6) sparqlUnion = selectUnion (bound 6) sparqlUnion :=
  (pushdownUnion_eq_iff (by decide)).2 fun side => by cases side <;> decide

/-- **A column that an input leaves unbound.** The test of `?x` above the union
keeps the left row; on the right input it is asked for a column that the input
does not have. -/
theorem pushdownUnion_unbound :
    (selectUnion (bound 4) sparqlUnion).map Multiset.card = some 1 ∧ pushdownUnion (bound 4) sparqlUnion = none := by
  decide

end GengoDB.RelAlg
