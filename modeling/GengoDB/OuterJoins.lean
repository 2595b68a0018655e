/-
The rewrites of an outer join into an anti join (`OuterJoinToAntiJoin`) and,
below a test with IS NOT NULL, into an inner join (`OuterJoinToInnerJoin`,
`SingleJoinToInnerJoin`).

The first looks along the selections above an outer join for tests of a created
column with IS NULL. If there is one, the last of them is replaced by the anti
join with nulls in the created columns: the selections between the join and
this test are left without a user. Neither they nor matches in which the
tested column is null are taken care of, and the plan is kept exactly if there
are no rows they would make a difference for (`outerJoinToAntiJoin_iff`). The
second only loses rows that the test drops (`toInnerJoin_rows`). It means to
make values of the right input nullable where the created column is, but
compares the type of the created column with itself. What is read from the
created column is then of the right column's type, so columns keep their types
exactly if the right ones are nullable already (`toInnerJoin_iff`).
-/
import GengoDB.JoinIdentities

namespace GengoDB.RelAlg

open Multiset

variable {C V : Type}

/-- The predicate of a selection. -/
inductive Selection (C V : Type)
  | isNull (c : C)
  | other (f : Lambda C V)

def Selection.holds : Selection C V → Row C V → Bool
  | isNull c, r => (r c).isNone
  | other f, r => f.fn r == some true

def Selection.used : Selection C V → List C
  | isNull c => [c]
  | other f => f.used

/-- Selections above a stream, the lowest first. -/
def selectAll (chain : List (Selection C V)) (rows : Multiset (Row C V)) : Multiset (Row C V) :=
  chain.foldl (fun rows s => rows.filter fun r => s.holds r) rows

section Rewrite

variable [DecidableEq C]

def isNullCheckOnColumn (relevantColumns : List C) : Selection C V → Bool
  | .isNull c => c ∈ relevantColumns
  | .other _ => false

/-- The selections above the last test of a created column; `none` if there is no
such test. -/
def aboveLastCheck (created : List C) : List (Selection C V) → Option (List (Selection C V))
  | [] => none
  | s :: chain =>
    match aboveLastCheck created chain with
    | some above => some above
    | none => if isNullCheckOnColumn created s then some chain else none

/-- The map that makes columns null. -/
def mapToNull (columns : List C) (r : Row C V) : Row C V := fun c => if c ∈ columns then none else r c

variable [DecidableEq V] [Values V]

/-- An outer join below selections, each the only user of the stream below it. -/
def outerJoinPlan (p : Pred C V) (mapping : List (C × C)) (chain : List (Selection C V)) (A B : Multiset (Row C V)) :
    Multiset (Row C V) :=
  selectAll chain (Row.extend A ((RowJoin.outerJoin p mapping).expand B))

def outerJoinToAntiJoin (p : Pred C V) (mapping : List (C × C)) (chain : List (Selection C V))
    (A B : Multiset (Row C V)) : Multiset (Row C V) :=
  match aboveLastCheck (mapping.map Prod.fst) chain with
  | some above =>
    selectAll above ((Row.extend A ((RowJoin.antiSemiJoin p).expand B)).map (mapToNull (mapping.map Prod.fst)))
  | none => outerJoinPlan p mapping chain A B

end Rewrite

/-! ## When the plan is kept -/

theorem selectAll_eq (chain : List (Selection C V)) (rows : Multiset (Row C V)) :
    selectAll chain rows = rows.filter fun r => chain.all fun s => s.holds r := by
  induction chain generalizing rows with
  | nil => exact (filter_eq_self.mpr fun _ _ => rfl).symm
  | cons s chain ih =>
    refine (ih _).trans ?_
    rw [filter_filter]
    refine filter_congr fun r _ => ?_
    rw [List.all_cons, Bool.and_eq_true, and_comm]

variable [DecidableEq C] {A B : Multiset (Row C V)} {L : Set C} {mapping : List (C × C)} {a b r : Row C V} {right : List C}
  {chain above : List (Selection C V)}

theorem mapToNull_of_within (h : Row.Within L a) (hcreated : ∀ c ∈ mapping.map Prod.fst, c ∉ L) :
    mapToNull (mapping.map Prod.fst) a = a := by
  funext c
  rw [mapToNull]
  split
  · next hc => exact (h c (hcreated c hc)).symm
  · rfl

/-- The left row of a joined row is known from it. -/
theorem left_eq_of_merge (hr : Row.Within L r) (ha : Row.Within L a) (hcreated : ∀ c ∈ mapping.map Prod.fst, c ∉ L)
    (h : a.merge (remap mapping b) = r) : a = r := by
  funext c
  by_cases hc : c ∈ L
  · have hnull : remap mapping b c = none := remap_within mapping b c fun hm => hcreated c hm hc
    rw [← h, Row.merge_apply, hnull, Option.or_none]
  · rw [ha c hc, hr c hc]

theorem aboveLastCheck_suffix {created : List C} : ∀ {chain above : List (Selection C V)},
    aboveLastCheck created chain = some above → above <:+ chain
  | s :: chain, above, h => by
    rw [aboveLastCheck] at h
    split at h
    · next rest hrest =>
      obtain rfl : rest = above := Option.some.inj h
      exact (aboveLastCheck_suffix hrest).trans (List.suffix_cons s chain)
    · split at h
      · obtain rfl : chain = above := Option.some.inj h
        exact List.suffix_cons s chain
      · cases h

theorem all_above {created : List C}
    (h : aboveLastCheck created chain = some above) (hall : (chain.all fun s => s.holds r)) :
    (above.all fun s => s.holds r) :=
  List.all_eq_true.mpr fun s hs => List.all_eq_true.mp hall s ((aboveLastCheck_suffix h).subset hs)

theorem holds_mapToNull {s : Selection C V} (h : ∀ c ∈ s.used, c ∉ right) : s.holds (mapToNull right r) = s.holds r := by
  have hagree : ∀ c ∈ s.used, mapToNull right r c = r c := fun c hc => if_neg (h c hc)
  cases s with
  | isNull c => rw [Selection.holds, hagree c (List.mem_singleton.mpr rfl), Selection.holds]
  | other f => rw [Selection.holds, f.reads _ _ hagree, Selection.holds]

theorem selectAll_map (h : ∀ s ∈ chain, ∀ c ∈ s.used, c ∉ right) :
    (selectAll chain A).map (mapToNull right) = selectAll chain (A.map (mapToNull right)) := by
  rw [selectAll_eq, selectAll_eq, filter_map]
  refine congrArg _ (filter_congr fun r _ => ?_)
  simp only [List.all_eq_true, Function.comp_apply]
  exact forall₂_congr fun s hs => by rw [holds_mapToNull (h s hs)]

/-- A match, without the columns of the right input. -/
theorem mapToNull_match (ha : Row.Within L a) (hb : Row.Within {c | c ∈ right} b)
    (hright : ∀ c ∈ right, c ∉ L) (hmapping : ∀ m ∈ mapping, m.1 ∉ right ∧ m.2 ∈ right) :
    mapToNull right ((a.merge b).merge (remap mapping (a.merge b))) = a.merge (remap mapping b) := by
  have hremap : remap mapping (a.merge b) = remap mapping b := by
    funext c
    refine Option.bind_congr fun m hm => ?_
    rw [Row.merge_apply, ha _ (hright _ (hmapping m (List.mem_of_find?_eq_some hm)).2), Option.none_or]
  funext c
  rw [hremap, mapToNull]
  split
  · next hc =>
    have hnull : remap mapping b c = none := by
      refine remap_within mapping b c fun hcreated => ?_
      obtain ⟨m, hm, rfl⟩ := List.mem_map.mp hcreated
      exact (hmapping m hm).1 hc
    rw [Row.merge_apply, ha c (hright c hc), hnull, Option.or_none]
  · next hc => rw [Row.merge_apply, Row.merge_apply, hb c hc, Option.or_none, Row.merge_apply]

variable [DecidableEq V] [Values V] {p : Pred C V}

/-- The rows of the plan: left rows without a match, and matches. -/
theorem mem_outerJoinPlan : r ∈ outerJoinPlan p mapping chain A B ↔ (chain.all fun s => s.holds r)
    ∧ ∃ a ∈ A, ((matching p B a).card = 0 ∧ r = a) ∨ ∃ b ∈ matching p B a, a.merge (remap mapping b) = r := by
  rw [outerJoinPlan, selectAll_eq, mem_filter, Row.mem_extend, and_comm]
  refine and_congr_right fun _ => exists_congr fun a => and_congr_right fun _ => ?_
  rw [RowJoin.expand, matchesOrNull]
  by_cases hnone : (matching p B a).card = 0
  · have hempty : matching p B a = 0 := card_eq_zero.mp hnone
    simp [hempty, eq_comm]
  · simp [hnone]

/-- The rows of the rewritten plan. -/
theorem outerJoinToAntiJoin_eq (hA : ∀ a ∈ A, Row.Within L a) (hcreated : ∀ c ∈ mapping.map Prod.fst, c ∉ L)
    (h : aboveLastCheck (mapping.map Prod.fst) chain = some above) : outerJoinToAntiJoin p mapping chain A B
      = A.filter fun a => (above.all fun s => s.holds a) ∧ (matching p B a).card = 0 := by
  have hanti : Row.extend A ((RowJoin.antiSemiJoin p).expand B) = A.filter fun a => (matching p B a).card = 0 := by
    rw [filter_eq_bind]
    refine bind_congr fun a _ => ?_
    rw [RowJoin.expand]
    split <;> simp
  have hnull : ((A.filter fun a => (matching p B a).card = 0).map (mapToNull (mapping.map Prod.fst)))
      = A.filter fun a => (matching p B a).card = 0 := by
    refine (map_congr rfl fun a ha => ?_).trans (map_id _)
    exact mapToNull_of_within (hA a (mem_of_mem_filter ha)) hcreated
  rw [outerJoinToAntiJoin, h]
  dsimp only
  rw [hanti, hnull, selectAll_eq, filter_filter]

/-- The plan is kept exactly if no match passes all selections, and every left
row without a match that passes the selections above the last test passes the
others as well. -/
theorem outerJoinToAntiJoin_iff (hA : ∀ a ∈ A, Row.Within L a) (hcreated : ∀ c ∈ mapping.map Prod.fst, c ∉ L)
    (h : aboveLastCheck (mapping.map Prod.fst) chain = some above) :
    outerJoinToAntiJoin p mapping chain A B = outerJoinPlan p mapping chain A B ↔
      (∀ a ∈ A, ∀ b ∈ matching p B a, (chain.all fun s => s.holds (a.merge (remap mapping b))) = false)
        ∧ ∀ a ∈ A, (matching p B a).card = 0 → (above.all fun s => s.holds a) = true →
          (chain.all fun s => s.holds a) = true := by
  rw [outerJoinToAntiJoin_eq hA hcreated h]
  constructor
  · intro heq
    refine ⟨fun a ha b hb => ?_, fun a ha hnone habove => ?_⟩
    · -- A match that passes would be a left row of the rewritten plan, and hence `a` itself, which has a match.
      refine Bool.eq_false_iff.mpr fun hpass => ?_
      have hmem : a.merge (remap mapping b) ∈ outerJoinPlan p mapping chain A B :=
        mem_outerJoinPlan.mpr ⟨hpass, a, ha, .inr ⟨b, hb, rfl⟩⟩
      rw [← heq, mem_filter] at hmem
      obtain ⟨hleft, -, hnone⟩ := hmem
      rw [← left_eq_of_merge (hA _ hleft) (hA a ha) hcreated rfl, card_eq_zero] at hnone
      rw [hnone] at hb
      exact notMem_zero b hb
    · have hmem : a ∈ outerJoinPlan p mapping chain A B := heq ▸ mem_filter.mpr ⟨ha, habove, hnone⟩
      exact (mem_outerJoinPlan.mp hmem).1
  · rintro ⟨hmatch, hrest⟩
    rw [outerJoinPlan, selectAll_eq, Row.extend, filter_bind, filter_eq_bind]
    refine bind_congr fun a ha => ?_
    rw [RowJoin.expand, matchesOrNull]
    by_cases hnone : (matching p B a).card = 0
    · have hchain : (chain.all fun s => s.holds a) ↔ (above.all fun s => s.holds a) :=
        ⟨all_above h, hrest a ha hnone⟩
      rw [if_pos hnone, map_singleton, Row.merge_empty, filter_singleton]
      exact if_congr (by rw [hchain, and_iff_left hnone]) rfl rfl
    · rw [if_neg hnone, if_neg fun hb => hnone hb.2]
      refine (filter_eq_nil.mpr fun r hr => ?_).symm
      obtain ⟨e, he, rfl⟩ := mem_map.mp hr
      obtain ⟨b, hb, rfl⟩ := mem_map.mp he
      exact Bool.eq_false_iff.mp (hmatch a ha b hb)

/-- A selection of one column of numbers. -/
def equalsTo (c : Fin 4) (n : ℕ) : Selection (Fin 4) ℕ :=
  .other ⟨[c], fun r => (r c).map (· == n), fun r s h => by rw [h c (List.mem_singleton.mpr rfl)]⟩

/-- A row with a match that has a value, a row without one, and a selection above the test. -/
theorem outerJoinToAntiJoin_numbers :
    let A : Multiset (Row (Fin 4) ℕ) := {Row.single 0 7, Row.single 0 8}
    let B : Multiset (Row (Fin 4) ℕ) := {(Row.single 1 7).merge (Row.single 2 5)}
    outerJoinToAntiJoin (.eq 0 1) [(3, 2)] [.isNull 3, equalsTo 0 8] A B = {Row.single 0 8} ∧
      outerJoinToAntiJoin (.eq 0 1) [(3, 2)] [.isNull 3, equalsTo 0 8] A B
        = outerJoinPlan (.eq 0 1) [(3, 2)] [.isNull 3, equalsTo 0 8] A B := by
  refine ⟨by decide, (outerJoinToAntiJoin_iff (L := {0}) ?_ ?_ rfl).mpr ⟨by decide, by decide⟩⟩
  · simp [Row.Within]
    decide
  · decide

/-- A match in which the tested column is null is lost, and a selection below
the test is no longer applied. -/
theorem outerJoinToAntiJoin_differs :
    let A : Multiset (Row (Fin 4) ℕ) := {Row.single 0 7}
    (outerJoinPlan (.eq 0 1) [(3, 2)] [.isNull 3] A {Row.single 1 7} = A ∧
      outerJoinToAntiJoin (.eq 0 1) [(3, 2)] [.isNull 3] A {Row.single 1 7} = 0) ∧
    outerJoinPlan (.eq 0 1) [(3, 2)] [equalsTo 0 8, .isNull 3] A 0 = 0 ∧
      outerJoinToAntiJoin (.eq 0 1) [(3, 2)] [equalsTo 0 8, .isNull 3] A 0 = A := by
  decide

/-! ## Inner joins -/

def isNotNull (c : C) : Selection C V :=
  .other ⟨[c], fun r => some (r c).isSome, fun r s h => by rw [h c (List.mem_singleton.mpr rfl)]⟩

/-- The type of a column. -/
structure ColumnType where
  base : String
  nullable : Bool
  deriving DecidableEq

def ColumnType.asNullable (t : ColumnType) : ColumnType := { t with nullable := true }

/-- A value that the block of a map returns. -/
inductive ColumnValue (C : Type)
  | getColumn (type : ColumnType) (ref : C)
  | asNullable (type : ColumnType) (val : ColumnValue C)

namespace ColumnValue

def type : ColumnValue C → ColumnType
  | getColumn type _ => type
  | asNullable type _ => type

def eval (r : Row C V) : ColumnValue C → Option V
  | getColumn _ ref => r ref
  | asNullable _ val => val.eval r

/-- The type of what comes out: `MapLowering` puts the value of the column in
place of a `getcol`, whatever type that has. -/
def delivered (columnType : C → ColumnType) : ColumnValue C → ColumnType
  | getColumn _ ref => columnType ref
  | asNullable type _ => type

end ColumnValue

/-- Rows, and the types their values have. -/
structure Stream (C V : Type) where
  type : C → ColumnType
  rows : Multiset (Row C V)

def Stream.select (chain : List (Selection C V)) (s : Stream C V) : Stream C V := { s with rows := selectAll chain s.rows }

/-- The same rows of the same types, but for columns that are hidden. -/
structure Stream.Same (hidden : List C) (s t : Stream C V) : Prop where
  type : ∀ c, c ∉ hidden → s.type c = t.type c
  rows : s.rows.map (mapToNull hidden) = t.rows

/-- `relalg.map` with these columns. -/
def Stream.mapOp (columns : List (C × ColumnValue C)) (s : Stream C V) : Stream C V where
  type c := ((columns.find? (·.1 = c)).map fun m => m.2.delivered s.type).getD (s.type c)
  rows := s.rows.map fun r => r.merge fun c => (columns.find? (·.1 = c)).bind fun m => m.2.eval r

/-- The value of a created column, as both rewrites build it. -/
def createdValue (columnType : C → ColumnType) (m : C × C) : ColumnValue C :=
  let colVal := .getColumn (columnType m.1) m.2
  if colVal.type ≠ columnType m.1 then .asNullable (columnType m.1) colVal else colVal

/-- The inner join, and the map that computes the created columns. -/
def toInnerJoin (columnType : C → ColumnType) (p : Pred C V) (mapping : List (C × C)) (A B : Multiset (Row C V)) :
    Stream C V :=
  Stream.mapOp (mapping.map fun m => (m.1, createdValue columnType m))
    ⟨columnType, Row.extend A ((RowJoin.innerJoin p).expand B)⟩

variable {columnType : C → ColumnType}

omit [DecidableEq C] in
theorem createdValue_eq (m : C × C) : createdValue columnType m = .getColumn (columnType m.1) m.2 :=
  if_neg fun h => h rfl

theorem find?_created (c : C) : (mapping.map fun m => (m.1, createdValue columnType m)).find? (·.1 = c) =
    (mapping.find? (·.1 = c)).map fun m => (m.1, createdValue columnType m) := by
  rw [List.find?_map]
  rfl

theorem toInnerJoin_rows_eq : (toInnerJoin columnType p mapping A B).rows =
    (Row.extend A ((RowJoin.innerJoin p).expand B)).map fun r => r.merge (remap mapping r) := by
  refine map_congr rfl fun r _ => congrArg _ (funext fun c => ?_)
  rw [find?_created, Option.bind_map]
  refine Option.bind_congr fun m _ => ?_
  rw [Function.comp_apply, createdValue_eq]
  rfl

theorem toInnerJoin_type (c : C) : (toInnerJoin columnType p mapping A B).type c =
    ((mapping.find? (·.1 = c)).map fun m => columnType m.2).getD (columnType c) := by
  show Option.getD (Option.map _ _) _ = _
  rw [find?_created, Option.map_map]
  refine congrArg (Option.getD · _) (Option.map_congr fun m _ => ?_)
  rw [Function.comp_apply, createdValue_eq]
  rfl

/-- **Outer to inner join**: above the selections, the rows are the same in all
columns but those of the right input, which the join hid. -/
theorem toInnerJoin_rows {j : RowJoin C V} {c : C} (hj : j = .outerJoin p mapping ∨ j = .singleJoin p mapping)
    (hA : ∀ a ∈ A, Row.Within L a) (hB : ∀ b ∈ B, Row.Within {c | c ∈ right} b) (hright : ∀ c ∈ right, c ∉ L)
    (hmapping : ∀ m ∈ mapping, m.1 ∉ L ∧ m.1 ∉ right ∧ m.2 ∈ right) (hused : ∀ s ∈ chain, ∀ c ∈ s.used, c ∉ right)
    (hc : c ∈ mapping.map Prod.fst) (hchain : isNotNull c ∈ chain) :
    (selectAll chain (toInnerJoin columnType p mapping A B).rows).map (mapToNull right) =
      selectAll chain (Row.extend A (j.expand B)) := by
  have hexpand : j.expand B = matchesOrNull p mapping B := by obtain rfl | rfl := hj <;> rfl
  rw [selectAll_map hused, hexpand, toInnerJoin_rows_eq, map_map, Row.extend, map_bind, selectAll_eq, selectAll_eq,
    Row.extend, filter_bind, filter_bind]
  refine bind_congr fun a ha => ?_
  rw [map_map, RowJoin.expand, matchesOrNull]
  by_cases hnone : (matching p B a).card = 0
  · -- the padded row is null in the tested column
    obtain ⟨m, hm, rfl⟩ := List.mem_map.mp hc
    have hnull : a m.1 = none := hA a ha _ (hmapping m hm).1
    rw [if_pos hnone, card_eq_zero.mp hnone, map_singleton, Row.merge_empty, filter_singleton, if_neg]
    · rfl
    · refine fun hall => absurd (List.all_eq_true.mp hall _ hchain) ?_
      simp [isNotNull, Selection.holds, hnull]
  · rw [if_neg hnone, map_map]
    refine congrArg _ (map_congr rfl fun b hb => ?_)
    exact mapToNull_match (hA a ha) (hB b (mem_of_mem_filter hb)) hright fun m hm => (hmapping m hm).2

theorem toInnerJoin_type_iff (hnodup : (mapping.map Prod.fst).Nodup) (hmapping : ∀ m ∈ mapping, m.1 ∉ right)
    (hcreated : ∀ m ∈ mapping, columnType m.1 = (columnType m.2).asNullable) :
    (∀ c, c ∉ right → (toInnerJoin columnType p mapping A B).type c = columnType c) ↔
      ∀ m ∈ mapping, (columnType m.2).nullable := by
  have hsame (m : C × C) (hm : m ∈ mapping) : columnType m.2 = columnType m.1 ↔ (columnType m.2).nullable := by
    rw [hcreated m hm]
    cases columnType m.2 with
    | mk base nullable => simp [ColumnType.asNullable]
  constructor
  · intro h m hm
    have hfind : mapping.find? (·.1 = m.1) = some m := by
      have hsome : (mapping.find? (·.1 = m.1)).isSome := List.find?_isSome.2 ⟨m, hm, decide_eq_true rfl⟩
      obtain ⟨m', hm'⟩ := Option.isSome_iff_exists.1 hsome
      have hkey : m'.1 = m.1 := by simpa using List.find?_some hm'
      rw [hm', List.inj_on_of_nodup_map hnodup (List.mem_of_find?_eq_some hm') hm hkey]
    have htype := h m.1 (hmapping m hm)
    rw [toInnerJoin_type, hfind] at htype
    exact (hsame m hm).1 htype
  · intro h c _
    rw [toInnerJoin_type]
    cases hfind : mapping.find? (·.1 = c) with
    | none => rfl
    | some m =>
      have hm := List.mem_of_find?_eq_some hfind
      obtain rfl : m.1 = c := by simpa using List.find?_some hfind
      exact (hsame m hm).2 (h m hm)

/-- **Outer to inner join**: above the selections, the rows are the same and all
columns keep their types, but for the columns of the right input, which the join
hid, exactly if these are nullable. -/
theorem toInnerJoin_iff {j : RowJoin C V} {c : C} (hj : j = .outerJoin p mapping ∨ j = .singleJoin p mapping)
    (hA : ∀ a ∈ A, Row.Within L a) (hB : ∀ b ∈ B, Row.Within {c | c ∈ right} b) (hright : ∀ c ∈ right, c ∉ L)
    (hmapping : ∀ m ∈ mapping, m.1 ∉ L ∧ m.1 ∉ right ∧ m.2 ∈ right) (hnodup : (mapping.map Prod.fst).Nodup)
    (hcreated : ∀ m ∈ mapping, columnType m.1 = (columnType m.2).asNullable)
    (hused : ∀ s ∈ chain, ∀ c ∈ s.used, c ∉ right) (hc : c ∈ mapping.map Prod.fst) (hchain : isNotNull c ∈ chain) :
    ((toInnerJoin columnType p mapping A B).select chain).Same right
        (Stream.select chain ⟨columnType, Row.extend A (j.expand B)⟩) ↔
      ∀ m ∈ mapping, (columnType m.2).nullable := by
  have htype := toInnerJoin_type_iff (p := p) (A := A) (B := B) hnodup (fun m hm => (hmapping m hm).2.1) hcreated
  constructor
  · intro h
    exact htype.1 h.type
  · intro h
    exact ⟨htype.2 h, toInnerJoin_rows hj hA hB hright hmapping hused hc hchain⟩

/-- Numbers, of columns that are all nullable but these. -/
def numberType (notNull : List (Fin 4)) (c : Fin 4) : ColumnType := ⟨"i32", c ∉ notNull⟩

/-- A row with a match and one without. -/
theorem toInnerJoin_numbers :
    let A : Multiset (Row (Fin 4) ℕ) := {Row.single 0 7, Row.single 0 8}
    let B : Multiset (Row (Fin 4) ℕ) := {(Row.single 1 7).merge (Row.single 2 5)}
    ((toInnerJoin (numberType [1]) (.eq 0 1) [(3, 2)] A B).select [isNotNull 3]).Same [1, 2]
      (Stream.select [isNotNull 3] ⟨numberType [1], Row.extend A ((RowJoin.outerJoin (.eq 0 1) [(3, 2)]).expand B)⟩) := by
  refine (toInnerJoin_iff (L := {0}) (.inl rfl) ?_ ?_ (by decide) (by decide) (by decide) (by decide) (by decide) (c := 3)
    (by decide) (by simp)).2 (by decide)
  · simp [Row.Within]
    decide
  · simp [Row.Within]
    decide

/-- Whether the result of an operation on values of these types is nullable
(`wrapNullableType`). -/
def wrapNullable (operands : List ColumnType) : Bool := operands.any (·.nullable)

/-- A right column that is NOT NULL: values of the created column, which is
nullable, are not. A comparison of it was made with a nullable result, and is
not any more. -/
theorem toInnerJoin_not_nullable :
    let A : Multiset (Row (Fin 4) ℕ) := {Row.single 0 7}
    let B : Multiset (Row (Fin 4) ℕ) := {(Row.single 1 7).merge (Row.single 2 5)}
    let joined := toInnerJoin (numberType [1, 2]) (.eq 0 1) [(3, 2)] A B
    ¬ (joined.select [isNotNull 3]).Same [1, 2]
        (Stream.select [isNotNull 3] ⟨numberType [1, 2], Row.extend A ((RowJoin.outerJoin (.eq 0 1) [(3, 2)]).expand B)⟩) ∧
      wrapNullable [numberType [1, 2] 3] = true ∧ wrapNullable [joined.type 3] = false := by
  refine ⟨fun h => ?_, by decide, by decide⟩
  have htype := h.type 3 (by decide)
  revert htype
  decide

end GengoDB.RelAlg
