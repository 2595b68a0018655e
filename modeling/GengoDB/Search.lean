/-
Binary search over positions. `partitionPoint p first len` is the loop of
`std::lower_bound` and `std::upper_bound`: it halves the range until it has
found where `p` stops to hold. If `p` holds on a first part of the range and
nowhere after it, that is the end of this part (`partitionPoint_spec`).
-/
import Mathlib.Data.List.Sort
import Mathlib.Order.Basic

namespace GengoDB.Search

/-- The first of the `len` positions from `first` on at which `p` fails. -/
def partitionPoint (p : ℕ → Bool) (first len : ℕ) : ℕ :=
  if len = 0 then first
  else if p (first + len / 2) then partitionPoint p (first + len / 2 + 1) (len - len / 2 - 1)
  else partitionPoint p first (len / 2)
termination_by len
decreasing_by all_goals omega

/-- `r` separates the positions with `p` from those without. -/
structure Separates (p : ℕ → Bool) (first len r : ℕ) : Prop where
  ge : first ≤ r
  le : r ≤ first + len
  below : ∀ i, first ≤ i → i < r → p i = true
  above : ∀ i, r ≤ i → i < first + len → p i = false

variable {p : ℕ → Bool} {first len : ℕ}

theorem partitionPoint_spec : ∀ {first len : ℕ}, (∀ i j, first ≤ i → i ≤ j → j < first + len → p j → p i) →
      Separates p first len (partitionPoint p first len) := by
  intro first len
  induction first, len using partitionPoint.induct p with
  | case1 first =>
    intro _
    rw [partitionPoint, if_pos rfl]
    exact ⟨Nat.le_refl _, Nat.le_refl _, fun i h h' => by omega, fun i h h' => by omega⟩
  | case2 first len hlen hp ih =>
    intro hmono
    rw [partitionPoint, if_neg hlen, if_pos hp]
    -- everything up to the middle has `p`
    obtain ⟨hge, hle, hbelow, habove⟩ := ih fun i j hi hij hj => hmono i j (by omega) hij (by omega)
    refine ⟨by omega, by omega, fun i hi hir => ?_, fun i hi hir => habove i hi (by omega)⟩
    rcases Nat.lt_or_ge (first + len / 2) i with h | h
    · exact hbelow i h hir
    · exact hmono i _ hi h (by omega) hp
  | case3 first len hlen hp ih =>
    intro hmono
    rw [partitionPoint, if_neg hlen, if_neg hp]
    obtain ⟨hge, hle, hbelow, habove⟩ := ih fun i j hi hij hj => hmono i j hi hij (by omega)
    refine ⟨hge, by omega, hbelow, fun i hi hir => ?_⟩
    rcases Nat.lt_or_ge i (first + len / 2) with h | h
    · exact habove i hi h
    · cases hpi : p i with
      | false => rfl
      | true => exact absurd (hmono _ i (by omega) h hir hpi) hp

/-! ## Sorted lists -/

section Sorted

variable {α : Type} [LinearOrder α]

/-- `std::binary_search`. -/
def binarySearch (l : List α) (x : α) : Bool :=
  (l[partitionPoint (fun i => l[i]?.any (· < x)) 0 l.length]?).any fun y => !decide (x < y)

theorem binarySearch_iff {l : List α} (h : l.Pairwise (· ≤ ·)) (x : α) : binarySearch l x ↔ x ∈ l := by
  have hsep : Separates (fun i => l[i]?.any (· < x)) 0 l.length
      (partitionPoint (fun i => l[i]?.any (· < x)) 0 l.length) := by
    refine partitionPoint_spec fun i j _ hij hj hp => ?_
    rw [Nat.zero_add] at hj
    have hle : l[i] ≤ l[j] := by
      rcases Nat.lt_or_eq_of_le hij with hlt | rfl
      · exact List.pairwise_iff_getElem.1 h i j (by omega) hj hlt
      · exact le_refl _
    rw [List.getElem?_eq_getElem hj] at hp
    rw [List.getElem?_eq_getElem (by omega)]
    simp only [Option.any_some, decide_eq_true_eq] at hp ⊢
    exact lt_of_le_of_lt hle hp
  unfold binarySearch
  generalize partitionPoint (fun i => l[i]?.any (· < x)) 0 l.length = r at hsep ⊢
  constructor
  · intro hx
    obtain ⟨y, hy, hxy⟩ := (Option.any_eq_true _ _).1 hx
    obtain ⟨hr, rfl⟩ := List.getElem?_eq_some_iff.1 hy
    -- the value found is neither below nor above `x`
    have hnlt := hsep.above r (Nat.le_refl r) (by omega)
    rw [List.getElem?_eq_getElem hr] at hnlt
    simp only [Option.any_some, decide_eq_false_iff_not, Bool.not_eq_true', not_lt] at hnlt hxy
    exact le_antisymm hnlt hxy ▸ List.getElem_mem hr
  · intro hx
    obtain ⟨k, hk, rfl⟩ := List.getElem_of_mem hx
    have hrk : r ≤ k := by
      by_contra hlt
      have hbelow := hsep.below k (Nat.zero_le k) (by omega)
      rw [List.getElem?_eq_getElem hk] at hbelow
      simp at hbelow
    have hr : r < l.length := by omega
    have hle : l[r] ≤ l[k] := by
      rcases Nat.lt_or_eq_of_le hrk with hlt | rfl
      · exact List.pairwise_iff_getElem.1 h r k hr hk hlt
      · exact le_refl _
    rw [List.getElem?_eq_getElem hr]
    simpa using hle

end Sorted

end GengoDB.Search
