/-
Rows over named columns, and bags of them that grow to the right.

A row gives each column a value or null, and is null outside the columns of
its relation, so that two rows are put together by taking whichever of them
has a value. Most joins work on one left row at a time: what the right input
holds decides by which rows the left row is extended (by its matches, by one
empty row, by a flag). `extend` is that shape, and its two laws are what join
reordering rests on: extensions that do not see each other's columns commute,
and an extension of the right input can be made after the join.
-/
import Mathlib.Data.Multiset.Bind
import Mathlib.Data.Multiset.Dedup
import Mathlib.Data.Multiset.Filter
import Mathlib.Data.Set.BooleanAlgebra
import Mathlib.Data.Set.Function
import Mathlib.Order.CompletePartialOrder

namespace GengoDB

open Multiset

/-- A value or null for each column. -/
abbrev Row (C V : Type*) := C → Option V

namespace Row

variable {C V : Type*}

/-- The row of no columns. -/
def empty : Row C V := fun _ => none

/-- Two rows put side by side. -/
def merge (r s : Row C V) : Row C V := fun c => (r c).or (s c)

/-- The row of the single column `c`. -/
def single [DecidableEq C] (c : C) (v : V) : Row C V := fun d => if d = c then some v else none

/-- A row has values in the columns of `S` only. -/
def Within (S : Set C) (r : Row C V) : Prop := ∀ c ∉ S, r c = none

variable {r s t : Row C V} {S T : Set C}

@[simp] theorem empty_apply (c : C) : (empty : Row C V) c = none := rfl

@[simp] theorem merge_apply (r s : Row C V) (c : C) : r.merge s c = (r c).or (s c) := rfl

@[simp] theorem merge_empty (r : Row C V) : r.merge empty = r := by
  funext c
  simp

theorem merge_assoc (r s t : Row C V) : (r.merge s).merge t = r.merge (s.merge t) := by
  funext c
  simp [Option.or_assoc]

theorem Within.empty (S : Set C) : Within S (Row.empty : Row C V) := fun _ _ => rfl

theorem Within.single [DecidableEq C] {c : C} (v : V) (hc : c ∈ S) : Within S (Row.single c v) := by
  intro d hd
  have hne : d ≠ c := by
    rintro rfl
    exact hd hc
  exact if_neg hne

theorem Within.merge_comm (hr : Within S r) (hs : Within T s) (hST : Disjoint S T) : r.merge s = s.merge r := by
  funext c
  by_cases hc : c ∈ S
  · simp [hs c (Set.disjoint_left.1 hST hc)]
  · simp [hr c hc]

/-! ## Bags that grow to the right -/

/-- Every row of `A`, once for each of the rows it is extended by. -/
def extend (A : Multiset (Row C V)) (ext : Row C V → Multiset (Row C V)) : Multiset (Row C V) :=
  A.bind fun a => (ext a).map a.merge

variable {A B : Multiset (Row C V)} {ext ext₁ ext₂ : Row C V → Multiset (Row C V)}

theorem mem_extend {t : Row C V} : t ∈ extend A ext ↔ ∃ a ∈ A, ∃ e ∈ ext a, a.merge e = t := by
  simp [extend]

theorem extend_congr (h : ∀ a ∈ A, ext₁ a = ext₂ a) : extend A ext₁ = extend A ext₂ :=
  bind_congr fun a ha => by rw [h a ha]

/-- Extending twice is extending each row by the pairs. -/
theorem extend_extend : extend (extend A ext₁) ext₂ =
    A.bind fun a => (ext₁ a).bind fun e => (ext₂ (a.merge e)).map fun f => (a.merge e).merge f := by
  rw [extend, extend, bind_assoc]
  exact bind_congr fun a _ => bind_map ..

/-- Two extensions that look only at the rows of `A`, not at what the other
adds, can be made in either order. -/
theorem extend_comm (h₁ : ∀ a ∈ A, ∀ f ∈ ext₂ a, ext₁ (a.merge f) = ext₁ a)
    (h₂ : ∀ a ∈ A, ∀ e ∈ ext₁ a, ext₂ (a.merge e) = ext₂ a)
    (hcomm : ∀ a ∈ A, ∀ e ∈ ext₁ a, ∀ f ∈ ext₂ a, e.merge f = f.merge e) :
    extend (extend A ext₁) ext₂ = extend (extend A ext₂) ext₁ := by
  rw [extend_extend, extend_extend]
  refine bind_congr fun a ha => ?_
  calc (ext₁ a).bind (fun e => (ext₂ (a.merge e)).map fun f => (a.merge e).merge f)
      = (ext₁ a).bind fun e => (ext₂ a).map fun f => (a.merge f).merge e := by
        refine bind_congr fun e he => ?_
        rw [h₂ a ha e he]
        refine map_congr rfl fun f hf => ?_
        rw [merge_assoc, hcomm a ha e he f hf, merge_assoc]
    _ = (ext₂ a).bind fun f => (ext₁ a).map fun e => (a.merge f).merge e := bind_map_comm _ _
    _ = (ext₂ a).bind fun f => (ext₁ (a.merge f)).map fun e => (a.merge f).merge e :=
        bind_congr fun f hf => by rw [h₁ a ha f hf]

/-- What one row contributes, under a selection that looks at that row only. -/
theorem filter_matches {p : Prop} [Decidable p] {q : Row C V → Prop} [DecidablePred q] {a : Row C V}
    {m : Multiset (Row C V)} (h : ∀ b ∈ m, q (a.merge b) ↔ p) :
    (m.map a.merge).filter q = if p then m.map a.merge else 0 := by
  split
  · next hp =>
    refine filter_eq_self.2 fun c hc => ?_
    obtain ⟨b, hb, rfl⟩ := mem_map.1 hc
    exact (h b hb).2 hp
  · next hp =>
    refine filter_eq_nil.2 fun c hc => ?_
    obtain ⟨b, hb, rfl⟩ := mem_map.1 hc
    exact fun hq => hp ((h b hb).1 hq)

variable {fits : Row C V → Row C V → Bool}

/-- A join of `A` with an extension of `B` is the extension of their join,
when the join condition looks at `A` and `B` only and the extension at `B`
only. -/
theorem extend_assoc (hfits : ∀ a ∈ A, ∀ b ∈ B, ∀ e ∈ ext b, fits a (b.merge e) = fits a b)
    (hext : ∀ a ∈ A, ∀ b ∈ B, ext (a.merge b) = ext b) : extend (extend A fun a => B.filter fun b => fits a b) ext =
      extend A fun a => (extend B ext).filter fun t => fits a t := by
  rw [extend_extend]
  refine bind_congr fun a ha => ?_
  calc (B.filter fun b => fits a b).bind (fun b => (ext (a.merge b)).map fun e => (a.merge b).merge e)
      = B.bind fun b => if fits a b then (ext (a.merge b)).map fun e => (a.merge b).merge e else 0 := bind_filter ..
    _ = B.bind fun b => (((ext b).map b.merge).filter fun t => fits a t).map a.merge := by
        refine bind_congr fun b hb => ?_
        have hm : ∀ e ∈ ext b, fits a (b.merge e) ↔ fits a b := fun e he => by
          rw [hfits a ha b hb e he]
        rw [hext a ha b hb, filter_matches hm]
        split
        · rw [map_map]
          exact map_congr rfl fun e _ => merge_assoc a b e
        · rfl
    _ = ((extend B ext).filter fun t => fits a t).map a.merge := by
        rw [extend, filter_bind, map_bind]

/-- The join of `B` and `D` next to `A`, made on whichever side `A` is taken
first. -/
theorem extend_swap {D : Multiset (Row C V)} (hfits : ∀ a ∈ A, ∀ b ∈ B, ∀ d ∈ D, fits b (a.merge d) = fits b d)
    (hcomm : ∀ a ∈ A, ∀ b ∈ B, a.merge b = b.merge a) :
    (extend A fun _ => extend B fun b => D.filter fun d => fits b d) =
      extend B fun b => (extend A fun _ => D).filter fun t => fits b t := by
  calc (extend A fun _ => extend B fun b => D.filter fun d => fits b d)
      = A.bind fun a => B.bind fun b => (D.filter fun d => fits b d).map fun d => a.merge (b.merge d) := by
        refine bind_congr fun a _ => ?_
        rw [extend, map_bind]
        exact bind_congr fun b _ => map_map ..
    _ = B.bind fun b => A.bind fun a => (D.filter fun d => fits b d).map fun d => a.merge (b.merge d) := bind_bind ..
    _ = extend B fun b => (extend A fun _ => D).filter fun t => fits b t := by
        refine bind_congr fun b hb => ?_
        simp only [extend, filter_bind, map_bind]
        refine bind_congr fun a ha => ?_
        rw [filter_map, map_map]
        refine map_congr (filter_congr fun d hd => ?_) fun d _ => ?_
        · rw [Function.comp_apply, hfits a ha b hb d hd]
        · rw [Function.comp_apply, ← merge_assoc, hcomm a ha b hb, merge_assoc]

/-- Extending by the empty row or by nothing is a selection. -/
theorem extend_eq_filter (q : Row C V → Bool) : (extend A fun a => if q a then {empty} else 0) = A.filter fun a => q a := by
  rw [extend, filter_eq_bind]
  refine bind_congr fun a _ => ?_
  split <;> simp

end Row
end GengoDB
