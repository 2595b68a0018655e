/-
The identities the reordering tables stand for.

`assoc`, `lAsscom` and `rAsscom` flag pairs of operators for which the query
optimizer may exchange `(A op₁ B) op₂ D` with `A op₁ (B op₂ D)` or
`(A op₂ D) op₁ B`, and `A op₁ (B op₂ D)` with `B op₂ (A op₁ D)`. For the joins
all of it follows from the laws of `Row.extend`: a join that reads the columns
of two of the three relations is not affected by what the third one adds. The
set operations are compared by how often they keep a row.

Every flagged identity holds, with one exception (`flagged_identity_iff`): the
operator type of a union does not tell `distinct` from `all`, and the tables
let the two be exchanged with each other.
-/
import Mathlib.Data.Fintype.Basic
import GengoDB.JoinOperators

namespace GengoDB.RelAlg

open Multiset RowJoin BinaryOperator Row

variable {C V : Type}

/-! ## Columns -/

/-- A bag of rows over a set of columns. -/
structure Relation (C V : Type) where
  cols : Set C
  rows : Multiset (Row C V)
  within : ∀ r ∈ rows, Row.Within cols r

def RowJoin.used : RowJoin C V → List C
  | .crossProduct => []
  | .innerJoin p | .semiJoin p | .antiSemiJoin p | .outerJoin p _ | .singleJoin p _ | .markJoin p _ => p.used
  | .collectionJoin p cols _ => p.used ++ cols

def RowJoin.created : RowJoin C V → List C
  | .crossProduct | .innerJoin _ | .semiJoin _ | .antiSemiJoin _ => []
  | .outerJoin _ mapping | .singleJoin _ mapping => mapping.map Prod.fst
  | .markJoin _ c | .collectionJoin _ _ c => [c]

/-- The columns a join adds to those of its left input. -/
def RowJoin.added (j : RowJoin C V) (R : Set C) : Set C :=
  match j with
  | .crossProduct | .innerJoin _ => R
  | j => {c | c ∈ j.created}

/-- A join whose inputs have no column in common, which reads their columns
and creates new ones. -/
structure RowJoin.WellTyped (j : RowJoin C V) (L R : Set C) : Prop where
  disjoint : Disjoint L R
  used : ∀ c ∈ j.used, c ∈ L ∪ R
  fresh : ∀ c ∈ j.created, c ∉ L ∪ R

namespace BinaryOperator

def columns (op : BinaryOperator C V) (L R : Set C) : Set C :=
  match op with
  | .union _ | .intersect _ | .except _ => L
  | .fullOuterJoin _ mapping => {c | c ∈ mapping.map Prod.fst}
  | .row j => L ∪ j.added R

def WellTyped (op : BinaryOperator C V) (L R : Set C) : Prop :=
  match op with
  | .union _ | .intersect _ | .except _ => L = R
  | .fullOuterJoin p mapping =>
    Disjoint L R ∧ (∀ c ∈ p.used, c ∈ L ∪ R) ∧ ∀ c ∈ mapping.map Prod.fst, c ∉ L ∪ R
  | .row j => j.WellTyped L R

end BinaryOperator

/-! ## The identities -/

inductive Identity
  | assoc
  | lAsscom
  | rAsscom
  deriving DecidableEq, Repr

namespace Identity

def flags (t : Identity) (op₁ op₂ : BinaryOperator C V) : Bool :=
  match t with
  | .assoc => isAssoc op₁ op₂
  | .lAsscom => isLAsscom op₁ op₂
  | .rAsscom => isRAsscom op₁ op₂

/-- Both sides of the identity are plans: every operator finds the columns it
reads in the two inputs it is given there. -/
def WellTyped (t : Identity) (op₁ op₂ : BinaryOperator C V) (A B D : Set C) : Prop :=
  match t with
  | .assoc =>
    op₁.WellTyped A B ∧ op₂.WellTyped (op₁.columns A B) D ∧
      op₂.WellTyped B D ∧ op₁.WellTyped A (op₂.columns B D)
  | .lAsscom =>
    op₁.WellTyped A B ∧ op₂.WellTyped (op₁.columns A B) D ∧
      op₂.WellTyped A D ∧ op₁.WellTyped (op₂.columns A D) B
  | .rAsscom =>
    op₂.WellTyped B D ∧ op₁.WellTyped A (op₂.columns B D) ∧
      op₁.WellTyped A D ∧ op₂.WellTyped B (op₁.columns A D)

variable [DecidableEq C] [DecidableEq V] [Values V] [DecidableEq (Row C V)]

def Holds (t : Identity) (op₁ op₂ : BinaryOperator C V) (A B D : Multiset (Row C V)) : Prop :=
  match t with
  | .assoc => op₂.apply (op₁.apply A B) D = op₁.apply A (op₂.apply B D)
  | .lAsscom => op₂.apply (op₁.apply A B) D = op₁.apply (op₂.apply A D) B
  | .rAsscom => op₁.apply A (op₂.apply B D) = op₂.apply B (op₁.apply A D)

end Identity

/-- Two unions of which one keeps duplicates and the other does not. -/
def MixedUnions (op₁ op₂ : BinaryOperator C V) : Prop :=
  ∃ s₁ s₂, op₁ = .union s₁ ∧ op₂ = .union s₂ ∧ s₁ ≠ s₂

/-! ## Joins -/

section Expand

variable {j : RowJoin C V} {R : Set C} {a b e : Row C V} {B : Multiset (Row C V)}

theorem mem_ite_empty {P : Prop} [Decidable P] (h : e ∈ if P then {empty} else (0 : Multiset (Row C V))) :
    e = empty := by
  split at h
  · exact mem_singleton.1 h
  · exact absurd h (notMem_zero e)

theorem matching_congr [DecidableEq V] {p : Pred C V} (h : ∀ c ∈ p.used, a c = b c) :
    matching p B a = matching p B b := by
  refine filter_congr fun t _ => ?_
  rw [p.holds_congr fun c hc => ?_]
  rw [merge_apply, merge_apply, h c hc]

variable [DecidableEq C]

theorem remap_within (mapping : List (C × C)) (r : Row C V) :
    Row.Within {c | c ∈ mapping.map Prod.fst} (remap mapping r) := by
  intro c hc
  have hnone : mapping.find? (·.1 = c) = none := by
    refine List.find?_eq_none.2 fun m hm hmc => hc ?_
    exact List.mem_map.2 ⟨m, hm, of_decide_eq_true hmc⟩
  rw [remap, hnone]
  rfl

variable [DecidableEq V]

theorem matchesOrNull_within (p : Pred C V) (mapping : List (C × C)) (he : e ∈ matchesOrNull p mapping B a) :
    Row.Within {c | c ∈ mapping.map Prod.fst} e := by
  unfold matchesOrNull at he
  split at he
  · rw [mem_singleton.1 he]
    exact .empty _
  · obtain ⟨b, -, rfl⟩ := mem_map.1 he
    exact remap_within mapping b

variable [Values V]

/-- A join looks at its left row only in the columns it reads. -/
theorem RowJoin.expand_congr (h : ∀ c ∈ j.used, a c = b c) : j.expand B a = j.expand B b := by
  cases j with
  | crossProduct => rfl
  | innerJoin p => exact matching_congr h
  | semiJoin p | antiSemiJoin p | markJoin p c => simp only [expand, matching_congr h]
  | outerJoin p mapping | singleJoin p mapping => simp only [expand, matchesOrNull, matching_congr h]
  | collectionJoin p cols c =>
    have hcols t : cols.map (a.merge t) = cols.map (b.merge t) :=
      List.map_congr_left fun c hc => by
        rw [merge_apply, merge_apply, h c (List.mem_append_right _ hc)]
    simp only [expand, matching_congr fun c hc => h c (List.mem_append_left _ hc), hcols]

/-- What is added to the left row in other columns is not seen. -/
theorem RowJoin.expand_merge (h : ∀ c ∈ j.used, e c = none) : j.expand B (a.merge e) = j.expand B a :=
  expand_congr fun c hc => by rw [merge_apply, h c hc, Option.or_none]

theorem RowJoin.expand_merge_left (h : ∀ c ∈ j.used, a c = none) : j.expand B (a.merge b) = j.expand B b :=
  expand_congr fun c hc => by rw [merge_apply, h c hc, Option.none_or]

theorem RowJoin.expand_within (hB : ∀ b ∈ B, Row.Within R b) (he : e ∈ j.expand B a) : Row.Within (j.added R) e := by
  cases j with
  | crossProduct => exact hB e he
  | innerJoin p => exact hB e (mem_filter.1 he).1
  | semiJoin p =>
    rw [expand, ← ite_not] at he
    exact mem_ite_empty he ▸ .empty _
  | antiSemiJoin p => exact mem_ite_empty he ▸ .empty _
  | outerJoin p mapping | singleJoin p mapping => exact matchesOrNull_within p mapping he
  | markJoin p c | collectionJoin p cols c =>
    rw [mem_singleton.1 he]
    exact .single _ (List.mem_singleton_self c)

end Expand

/-- What a join adds is not yet there. -/
theorem RowJoin.WellTyped.disjoint_added {j : RowJoin C V} {L R : Set C} (h : j.WellTyped L R) :
    Disjoint L (j.added R) := by
  have hcreated : Disjoint L {c | c ∈ j.created} := Set.disjoint_right.2 fun c hc hL => h.fresh c hc (.inl hL)
  cases j with
  | crossProduct => exact h.disjoint
  | innerJoin p => exact h.disjoint
  | semiJoin p | antiSemiJoin p | outerJoin p mapping | singleJoin p mapping | markJoin p c | collectionJoin p cols c =>
    exact hcreated

/-- The condition of a join that keeps the columns of both inputs. -/
def RowJoin.fits [DecidableEq V] (j : RowJoin C V) (a b : Row C V) : Bool :=
  match j with
  | .innerJoin p => p.holds (a.merge b)
  | _ => true

theorem RowJoin.fits_congr [DecidableEq V] {j : RowJoin C V} {a b a' b' : Row C V}
    (h : ∀ c ∈ j.used, a.merge b c = a'.merge b' c) : j.fits a b = j.fits a' b' := by
  cases j with
  | innerJoin p => exact p.holds_congr h
  | _ => rfl

/-- A join does not read the columns of a relation that has none of its inputs'. -/
theorem RowJoin.WellTyped.unread {j : RowJoin C V} {L R X : Set C} (h : j.WellTyped L R) (hL : Disjoint L X)
    (hR : Disjoint R X) {e : Row C V} (he : Row.Within X e) : ∀ c ∈ j.used, e c = none := by
  refine fun c hc => he c fun hX => ?_
  rcases h.used c hc with hcL | hcR
  · exact Set.disjoint_left.1 hL hcL hX
  · exact Set.disjoint_left.1 hR hcR hX

section Joins

variable [DecidableEq C] [DecidableEq V] [Values V] {A B D : Multiset (Row C V)} {SA SB SD : Set C}
  {j₁ j₂ j : RowJoin C V}

/-- Two joins with the same left input, each of which sees only its own right
input. -/
theorem RowJoin.lAsscom (hB : ∀ b ∈ B, Row.Within SB b) (hD : ∀ d ∈ D, Row.Within SD d) (h1 : j₁.WellTyped SA SB)
    (h12 : j₂.WellTyped (SA ∪ j₁.added SB) SD) (h2 : j₂.WellTyped SA SD) (h21 : j₁.WellTyped (SA ∪ j₂.added SD) SB) :
    extend (extend A (j₁.expand B)) (j₂.expand D) = extend (extend A (j₂.expand D)) (j₁.expand B) := by
  have hadded : Disjoint (j₁.added SB) (j₂.added SD) := h12.disjoint_added.mono_left Set.subset_union_right
  refine extend_comm (fun a _ f hf => j₁.expand_merge ?_) (fun a _ e he => j₂.expand_merge ?_) fun a _ e he f hf =>
    (expand_within hB he).merge_comm (expand_within hD hf) hadded
  · -- what the second join adds is neither a column of `A` nor one of `B`
    exact h1.unread h2.disjoint_added (h21.disjoint.mono_left Set.subset_union_right).symm (expand_within hD hf)
  · exact h2.unread h1.disjoint_added (h12.disjoint.mono_left Set.subset_union_right).symm (expand_within hB he)

theorem RowJoin.expand_eq_filter (hj : j.type = .cp ∨ j.type = .innerJoin) :
    j.expand B = fun a => B.filter fun b => j.fits a b := by
  funext a
  cases j with
  | crossProduct => exact (filter_eq_self.2 fun _ _ => rfl).symm
  | innerJoin p => rfl
  | _ => simp [type] at hj

/-- A join of the right input made after a join that does not see it. -/
theorem RowJoin.assoc (hj : j₁.type = .cp ∨ j₁.type = .innerJoin) (hA : ∀ a ∈ A, Row.Within SA a)
    (hD : ∀ d ∈ D, Row.Within SD d) (h1 : j₁.WellTyped SA SB) (h12 : j₂.WellTyped (SA ∪ j₁.added SB) SD)
    (h2 : j₂.WellTyped SB SD) (h21 : j₁.WellTyped SA (SB ∪ j₂.added SD)) :
    extend (extend A (j₁.expand B)) (j₂.expand D) = extend A (j₁.expand (extend B (j₂.expand D))) := by
  rw [expand_eq_filter hj, expand_eq_filter hj]
  refine extend_assoc (fun a ha b hb e he => ?_) fun a ha b hb => j₂.expand_merge_left ?_
  · have hnone := h1.unread (h21.disjoint.mono_right Set.subset_union_right) h2.disjoint_added (expand_within hD he)
    exact fits_congr fun c hc => by simp [hnone c hc]
  · exact h2.unread h1.disjoint.symm (h12.disjoint.mono_left Set.subset_union_left).symm (hA a ha)

/-- A product made inside or around a join. -/
theorem RowJoin.rAsscom (hj : j₂.type = .cp ∨ j₂.type = .innerJoin) (hA : ∀ a ∈ A, Row.Within SA a)
    (hB : ∀ b ∈ B, Row.Within SB b) (hAD : Disjoint SA SD) (h2 : j₂.WellTyped SB SD) (h21 : j₂.WellTyped SB (SA ∪ SD)) :
    (extend A fun _ => extend B (j₂.expand D)) = extend B (j₂.expand (extend A fun _ => D)) := by
  have hAB : Disjoint SA SB := (h21.disjoint.mono_right Set.subset_union_left).symm
  rw [expand_eq_filter hj, expand_eq_filter hj]
  refine extend_swap (fun a ha b hb d hd => ?_) fun a ha b hb => (hA a ha).merge_comm (hB b hb) hAB
  have hnone := h2.unread hAB.symm hAD.symm (hA a ha)
  exact fits_congr fun c hc => by simp [hnone c hc]

/-- Semi and anti joins select rows of their left input. -/
theorem RowJoin.exists_filter (hj : j.type = .semiJoin ∨ j.type = .antiSemiJoin) (B : Multiset (Row C V)) :
    ∃ q : Row C V → Bool, ∀ A : Multiset (Row C V), extend A (j.expand B) = A.filter fun a => q a := by
  cases j with
  | semiJoin p =>
    refine ⟨fun a => (matching p B a).card ≠ 0, fun A => ?_⟩
    rw [← extend_eq_filter]
    refine extend_congr fun a _ => ?_
    simp only [expand, decide_eq_true_eq, ite_not]
  | antiSemiJoin p =>
    refine ⟨fun a => (matching p B a).card = 0, fun A => ?_⟩
    rw [← extend_eq_filter]
    refine extend_congr fun a _ => ?_
    simp only [expand, decide_eq_true_eq]
  | _ => simp [type] at hj

end Joins

/-! ## Set operations -/

section SetOperations

variable [DecidableEq C] [DecidableEq V] [Values V] [DecidableEq (Row C V)] {A B D : Multiset (Row C V)}

section

variable (s : SetSemantic)

theorem count_intersect (r : Row C V) : ((intersect s : BinaryOperator C V).apply A B).count r =
      if s = .all then min (A.count r) (B.count r) else min 1 (min (A.count r) (B.count r)) := by
  cases s with
  | all => exact count_inter r A B
  | distinct =>
    simp only [apply, count_filter, count_dedup, ← count_pos, reduceCtorEq, if_false]
    split_ifs <;> omega

theorem count_except (r : Row C V) : ((except s : BinaryOperator C V).apply A B).count r =
      if s = .all then A.count r - B.count r else min 1 (A.count r) - B.count r := by
  cases s with
  | all => exact count_sub r A B
  | distinct =>
    simp only [apply, count_filter, count_dedup, ← count_pos, reduceCtorEq, if_false]
    split_ifs <;> omega

theorem filter_intersect (q : Row C V → Bool) : ((intersect s : BinaryOperator C V).apply A B).filter (fun r => q r) =
      (intersect s).apply (A.filter fun r => q r) B := by
  ext r
  simp only [count_filter, count_intersect]
  split_ifs <;> omega

theorem filter_intersect_right (q : Row C V → Bool) :
    ((intersect s : BinaryOperator C V).apply A B).filter (fun r => q r) =
      (intersect s).apply A (B.filter fun r => q r) := by
  ext r
  simp only [count_filter, count_intersect]
  split_ifs <;> omega

theorem filter_except (q : Row C V → Bool) : ((except s : BinaryOperator C V).apply A B).filter (fun r => q r) =
      (except s).apply (A.filter fun r => q r) B := by
  ext r
  simp only [count_filter, count_except]
  split_ifs <;> omega

/-- Unions of one kind only count or collect the rows of the three inputs. -/
theorem union_identity (t : Identity) : t.Holds (.union s) (.union s) A B D := by
  cases s with
  | all =>
    cases t with
    | assoc => exact add_assoc A B D
    | lAsscom => exact add_right_comm A B D
    | rAsscom => exact add_left_comm A B D
  | distinct =>
    cases t with
    | assoc => simp only [Identity.Holds, apply, dedup_ext]; simp [or_assoc]
    | lAsscom => simp only [Identity.Holds, apply, dedup_ext]; simp [or_right_comm]
    | rAsscom => simp only [Identity.Holds, apply, dedup_ext]; simp [or_left_comm]

end

theorem intersect_identity (t : Identity) (s1 s2 : SetSemantic) : t.Holds (.intersect s1) (.intersect s2) A B D := by
  cases t <;>
  · refine Multiset.ext.2 fun r => ?_
    simp only [count_intersect]
    split_ifs <;> omega

end SetOperations

/-! ## What the tables flag -/

/-- The types of the joins that work row by row. -/
def BinaryOperatorType.isRow : BinaryOperatorType → Bool
  | .cp | .innerJoin | .semiJoin | .antiSemiJoin | .outerJoin | .markJoin | .collectionJoin => true
  | _ => false

theorem assoc_cases : ∀ t ∈ assoc, t.1 = .union ∧ t.2 = .union ∨ t.1 = .intersection ∧ t.2 = .intersection ∨
    t.1 = .intersection ∧ (t.2 = .semiJoin ∨ t.2 = .antiSemiJoin) ∨ (t.1 = .cp ∨ t.1 = .innerJoin) ∧ t.2.isRow := by
  decide

theorem lAsscom_cases : ∀ t ∈ lAsscom, t.1 = .union ∧ t.2 = .union ∨ t.1 = .intersection ∧ t.2 = .intersection ∨
    (t.1 = .intersection ∨ t.1 = .except) ∧ (t.2 = .semiJoin ∨ t.2 = .antiSemiJoin) ∨
    (t.1 = .semiJoin ∨ t.1 = .antiSemiJoin) ∧ (t.2 = .intersection ∨ t.2 = .except) ∨ t.1.isRow ∧ t.2.isRow := by
  decide

theorem rAsscom_cases : ∀ t ∈ rAsscom, t.1 = .union ∧ t.2 = .union ∨ t.1 = .intersection ∧ t.2 = .intersection ∨
    t.1 = .cp ∧ (t.2 = .cp ∨ t.2 = .innerJoin) := by
  decide

section Inversion

variable {op : BinaryOperator C V}

theorem exists_semantic : (getBinaryOperatorType op = .union → ∃ s, op = .union s) ∧
    (getBinaryOperatorType op = .intersection → ∃ s, op = .intersect s) ∧
    (getBinaryOperatorType op = .except → ∃ s, op = .except s) := by
  cases op with
  | row j => cases j <;> simp [getBinaryOperatorType, type]
  | _ => simp [getBinaryOperatorType]

theorem exists_row (h : (getBinaryOperatorType op).isRow) : ∃ j, op = .row j := by
  cases op with
  | row j => exact ⟨j, rfl⟩
  | _ => cases h

theorem exists_row_of_or {t u : BinaryOperatorType} (ht : t.isRow) (hu : u.isRow)
    (h : getBinaryOperatorType op = t ∨ getBinaryOperatorType op = u) : ∃ j, op = .row j := by
  rcases h with h | h
  · exact exists_row (h ▸ ht)
  · exact exists_row (h ▸ hu)

end Inversion

section Flagged

variable [DecidableEq C] [DecidableEq V] [Values V] [DecidableEq (Row C V)]
variable {op₁ op₂ : BinaryOperator C V} {A B D : Relation C V}

theorem unions_hold {t : Identity} (hmix : ¬ MixedUnions op₁ op₂) (h1 : getBinaryOperatorType op₁ = .union)
    (h2 : getBinaryOperatorType op₂ = .union) : t.Holds op₁ op₂ A.rows B.rows D.rows := by
  obtain ⟨s1, rfl⟩ := exists_semantic.1 h1
  obtain ⟨s2, rfl⟩ := exists_semantic.1 h2
  have hs : s1 = s2 := by_contra fun hne => hmix ⟨s1, s2, rfl, rfl, hne⟩
  exact hs ▸ union_identity s1 t

theorem intersections_hold {t : Identity} (h1 : getBinaryOperatorType op₁ = .intersection)
    (h2 : getBinaryOperatorType op₂ = .intersection) : t.Holds op₁ op₂ A.rows B.rows D.rows := by
  obtain ⟨s1, rfl⟩ := exists_semantic.2.1 h1
  obtain ⟨s2, rfl⟩ := exists_semantic.2.1 h2
  exact intersect_identity t s1 s2

theorem assoc_holds (hflag : isAssoc op₁ op₂) (hmix : ¬ MixedUnions op₁ op₂)
    (h : Identity.assoc.WellTyped op₁ op₂ A.cols B.cols D.cols) :
    Identity.assoc.Holds op₁ op₂ A.rows B.rows D.rows := by
  obtain ⟨h1, h12, h2, h21⟩ := h
  rcases assoc_cases _ (List.contains_iff_mem.1 hflag) with ⟨hu1, hu2⟩ | ⟨hi1, hi2⟩ | ⟨hi, hs⟩ | ⟨hj, hr⟩
  · exact unions_hold hmix hu1 hu2
  · exact intersections_hold hi1 hi2
  · obtain ⟨s, rfl⟩ := exists_semantic.2.1 hi
    obtain ⟨j, rfl⟩ : ∃ j, op₂ = .row j := exists_row_of_or rfl rfl hs
    obtain ⟨q, hq⟩ := exists_filter hs D.rows
    show extend _ _ = apply _ _ (extend _ _)
    rw [hq, hq]
    exact filter_intersect_right s q
  · obtain ⟨j₁, rfl⟩ : ∃ j, op₁ = .row j := exists_row_of_or rfl rfl hj
    obtain ⟨j₂, rfl⟩ := exists_row hr
    exact RowJoin.assoc hj A.within D.within h1 h12 h2 h21

theorem lAsscom_holds (hflag : isLAsscom op₁ op₂) (hmix : ¬ MixedUnions op₁ op₂)
    (h : Identity.lAsscom.WellTyped op₁ op₂ A.cols B.cols D.cols) :
    Identity.lAsscom.Holds op₁ op₂ A.rows B.rows D.rows := by
  obtain ⟨h1, h12, h2, h21⟩ := h
  rcases lAsscom_cases _ (List.contains_iff_mem.1 hflag) with
    ⟨hu1, hu2⟩ | ⟨hi1, hi2⟩ | ⟨hset, hs⟩ | ⟨hs, hset⟩ | ⟨hr1, hr2⟩
  · exact unions_hold hmix hu1 hu2
  · exact intersections_hold hi1 hi2
  · obtain ⟨j, rfl⟩ : ∃ j, op₂ = .row j := exists_row_of_or rfl rfl hs
    obtain ⟨q, hq⟩ := exists_filter hs D.rows
    show extend _ _ = apply _ (extend _ _) _
    rw [hq, hq]
    rcases hset with hi | he
    · obtain ⟨s, rfl⟩ := exists_semantic.2.1 hi
      exact filter_intersect s q
    · obtain ⟨s, rfl⟩ := exists_semantic.2.2 he
      exact filter_except s q
  · obtain ⟨j, rfl⟩ : ∃ j, op₁ = .row j := exists_row_of_or rfl rfl hs
    obtain ⟨q, hq⟩ := exists_filter hs B.rows
    show apply _ (extend _ _) _ = extend _ _
    rw [hq, hq]
    rcases hset with hi | he
    · obtain ⟨s, rfl⟩ := exists_semantic.2.1 hi
      exact (filter_intersect s q).symm
    · obtain ⟨s, rfl⟩ := exists_semantic.2.2 he
      exact (filter_except s q).symm
  · obtain ⟨j₁, rfl⟩ := exists_row hr1
    obtain ⟨j₂, rfl⟩ := exists_row hr2
    exact RowJoin.lAsscom B.within D.within h1 h12 h2 h21

theorem rAsscom_holds (hflag : isRAsscom op₁ op₂) (hmix : ¬ MixedUnions op₁ op₂)
    (h : Identity.rAsscom.WellTyped op₁ op₂ A.cols B.cols D.cols) :
    Identity.rAsscom.Holds op₁ op₂ A.rows B.rows D.rows := by
  obtain ⟨h2, h12, h1, h21⟩ := h
  rcases rAsscom_cases _ (List.contains_iff_mem.1 hflag) with ⟨hu1, hu2⟩ | ⟨hi1, hi2⟩ | ⟨hcp, hj⟩
  · exact unions_hold hmix hu1 hu2
  · exact intersections_hold hi1 hi2
  · obtain ⟨j₁, rfl⟩ : ∃ j, op₁ = .row j := exists_row_of_or rfl rfl (.inl hcp : _ ∨ _ = .cp)
    obtain ⟨j₂, rfl⟩ : ∃ j, op₂ = .row j := exists_row_of_or rfl rfl hj
    cases j₁ with
    | crossProduct => exact RowJoin.rAsscom hj A.within B.within h1.disjoint h2 h21
    | _ => cases hcp

/-- Rows of no columns, the empty row `n` times. -/
def emptyRows (n : ℕ) : Relation C V where
  cols := ∅
  rows := Multiset.replicate n Row.empty
  within := fun _ hr => eq_of_mem_replicate hr ▸ .empty ∅

theorem count_union (s : SetSemantic) (A B : Multiset (Row C V)) (r : Row C V) :
    ((union s : BinaryOperator C V).apply A B).count r =
      if s = .all then A.count r + B.count r else min 1 (A.count r + B.count r) := by
  cases s with
  | all => exact count_add r A B
  | distinct =>
    simp only [apply, count_dedup, ← count_pos, count_add, reduceCtorEq, if_false]
    split_ifs <;> omega

/-- The number of empty rows in each of three inputs that tells a union with
duplicates from one without. -/
def separating (t : Identity) (s₁ : SetSemantic) : ℕ × ℕ × ℕ :=
  match t, s₁ with
  | .assoc, .distinct | .lAsscom, .distinct => (0, 0, 2)
  | .assoc, .all | .rAsscom, .all => (2, 0, 0)
  | .lAsscom, .all | .rAsscom, .distinct => (0, 2, 0)

theorem mixedUnions_fail (t : Identity) (hmix : MixedUnions op₁ op₂) :
    ∃ A B D : Relation C V, t.WellTyped op₁ op₂ A.cols B.cols D.cols ∧ ¬ t.Holds op₁ op₂ A.rows B.rows D.rows := by
  obtain ⟨s1, s2, rfl, rfl, hne⟩ := hmix
  refine ⟨emptyRows (separating t s1).1, emptyRows (separating t s1).2.1, emptyRows (separating t s1).2.2,
    by cases t <;> exact ⟨rfl, rfl, rfl, rfl⟩, fun hold => ?_⟩
  cases t <;> cases s1 <;> cases s2 <;> first
    | exact hne rfl
    | have hcount := congrArg (Multiset.count empty) hold
      simp [count_union, emptyRows, separating] at hcount

/-- A pair that a table flags can be exchanged on all relations, unless it is
a union that keeps duplicates next to one that does not. -/
theorem flagged_identity_iff (t : Identity) (op₁ op₂ : BinaryOperator C V) (hflag : t.flags op₁ op₂) :
    (∀ A B D : Relation C V, t.WellTyped op₁ op₂ A.cols B.cols D.cols →
      t.Holds op₁ op₂ A.rows B.rows D.rows) ↔ ¬ MixedUnions op₁ op₂ := by
  constructor
  · intro h hmix
    obtain ⟨A, B, D, htyped, hnot⟩ := mixedUnions_fail t hmix
    exact hnot (h A B D htyped)
  · intro hmix A B D htyped
    cases t with
    | assoc => exact assoc_holds hflag hmix htyped
    | lAsscom => exact lAsscom_holds hflag hmix htyped
    | rAsscom => exact rAsscom_holds hflag hmix htyped

end Flagged

instance : Values ℕ where
  ofBool := Bool.toNat
  ofBag := Multiset.card

/-- An outer join and a mark join of the same relation. -/
theorem outerJoin_markJoin_exchange :
    let outer : BinaryOperator (Fin 5) ℕ := .row (.outerJoin (.eq 0 1) [(3, 1)])
    let mark : BinaryOperator (Fin 5) ℕ := .row (.markJoin (.isa 0 2) 4)
    Identity.lAsscom.WellTyped outer mark {0} {1} {2} ∧
      ∀ A B D : Relation (Fin 5) ℕ, Identity.lAsscom.WellTyped outer mark A.cols B.cols D.cols →
        mark.apply (outer.apply A.rows B.rows) D.rows = outer.apply (mark.apply A.rows D.rows) B.rows := by
  refine ⟨⟨⟨?_, ?_, ?_⟩, ⟨?_, ?_, ?_⟩, ⟨?_, ?_, ?_⟩, ?_, ?_, ?_⟩, ?_⟩
  all_goals try simp [used, created, added, columns, Pred.used]
  exact (flagged_identity_iff .lAsscom _ _ (by decide)).2 (by rintro ⟨s₁, s₂, h, -⟩; cases h)

/-- Nothing united with nothing, without duplicates, and then with two equal
rows, keeping duplicates: the flagged exchange loses a row. -/
theorem mixedUnions_exchange_fails :
    let op₁ : BinaryOperator (Fin 1) ℕ := .union .distinct
    let op₂ : BinaryOperator (Fin 1) ℕ := .union .all
    let D : Multiset (Row (Fin 1) ℕ) := {Row.single 0 1, Row.single 0 1}
    isAssoc op₁ op₂ = true ∧ Identity.assoc.WellTyped op₁ op₂ {0} {0} {0} ∧
      op₂.apply (op₁.apply 0 0) D = {Row.single 0 1, Row.single 0 1} ∧
      op₁.apply 0 (op₂.apply 0 D) = {Row.single 0 1} := by
  refine ⟨by decide, ⟨rfl, rfl, rfl, rfl⟩, by decide, by decide⟩

end GengoDB.RelAlg
