/-
Straight-line code: operations in order, each with a result that is made from
the results of earlier ones.

`results` runs the operations from the first to the last. `getElem_results`
says what the result of one of them is: the operation, applied to the results
before it.
-/
import Mathlib.Data.List.Basic
import Mathlib.Data.List.Induction

namespace GengoDB.StraightLine

open List

variable {α β : Type}

/-- The results of operations, of which each sees those before it. -/
def results (f : α → List β → β) (ops : List α) : List β := ops.foldl (fun acc op => acc ++ [f op acc]) []

variable {f g : α → List β → β} {ops : List α} {op : α} {i : ℕ}

theorem results_concat (f : α → List β → β) (ops : List α) (op : α) :
    results f (ops ++ [op]) = results f ops ++ [f op (results f ops)] := by
  rw [results, foldl_append]
  rfl

theorem length_results (f : α → List β → β) (ops : List α) : (results f ops).length = ops.length := by
  induction ops using List.reverseRecOn with
  | nil => rfl
  | append_singleton ops op ih => rw [results_concat, length_append, length_append, ih]; rfl

/-- The result of an operation, from those before it. -/
theorem getElem_results (h : ops[i]? = some op) : (results f ops)[i]? = some (f op ((results f ops).take i)) := by
  induction ops using List.reverseRecOn with
  | nil => simp at h
  | append_singleton ops last ih =>
    rw [results_concat]
    obtain hlt | rfl | hgt := Nat.lt_trichotomy i ops.length
    · have hlt' : i < (results f ops).length := by rwa [length_results]
      rw [getElem?_append_left hlt] at h
      rw [getElem?_append_left hlt', take_append_of_le_length (Nat.le_of_lt hlt'), ih h]
    · rw [getElem?_concat_length] at h
      obtain rfl := Option.some.inj h
      rw [← length_results f ops, getElem?_concat_length, take_left]
    · rw [getElem?_eq_none (by rw [length_append]; exact hgt)] at h
      cases h

theorem results_congr (h : ∀ op ∈ ops, f op = g op) : results f ops = results g ops :=
  foldl_ext _ _ _ fun acc op hop => by rw [h op hop]

/-- Results before a position are the same in all results. -/
theorem getD_take {l : List β} {j : ℕ} (h : j < i) (d : β) : (l.take i).getD j d = l.getD j d := by
  rw [getD_eq_getElem?_getD, getD_eq_getElem?_getD, getElem?_take_of_lt h]

end GengoDB.StraightLine
