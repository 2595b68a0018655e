/-
Three-valued logic: a truth value is true, false or unknown, and a connective
is unknown where its known arguments do not decide it. Predicates are used by
whether they are true (`Holds`), so the rules here say when a connective is
true or false.
-/
import Mathlib.Data.List.Basic

namespace GengoDB.Kleene

def and : Option Bool → Option Bool → Option Bool
  | some false, _ | _, some false => some false
  | some true, some true => some true
  | _, _ => none

def or : Option Bool → Option Bool → Option Bool
  | some true, _ | _, some true => some true
  | some false, some false => some false
  | _, _ => none

def not (a : Option Bool) : Option Bool := a.map (!·)

def conj (l : List (Option Bool)) : Option Bool := l.foldr and (some true)

def disj (l : List (Option Bool)) : Option Bool := l.foldr or (some false)

variable {a b : Option Bool} {l : List (Option Bool)}

@[simp] theorem and_eq_true : and a b = some true ↔ a = some true ∧ b = some true := by
  rcases a with _ | _ | _ <;> rcases b with _ | _ | _ <;> simp [and]

@[simp] theorem and_eq_false : and a b = some false ↔ a = some false ∨ b = some false := by
  rcases a with _ | _ | _ <;> rcases b with _ | _ | _ <;> simp [and]

@[simp] theorem or_eq_true : or a b = some true ↔ a = some true ∨ b = some true := by
  rcases a with _ | _ | _ <;> rcases b with _ | _ | _ <;> simp [or]

@[simp] theorem or_eq_false : or a b = some false ↔ a = some false ∧ b = some false := by
  rcases a with _ | _ | _ <;> rcases b with _ | _ | _ <;> simp [or]

@[simp] theorem not_eq {t : Bool} : not a = some t ↔ a = some (!t) := by
  rcases a with _ | _ | _ <;> cases t <;> simp [not]

theorem ext (htrue : a = some true ↔ b = some true) (hfalse : a = some false ↔ b = some false) : a = b := by
  rcases a with _ | _ | _ <;> rcases b with _ | _ | _ <;> simp_all

@[simp] theorem conj_eq_true : conj l = some true ↔ ∀ a ∈ l, a = some true := by
  induction l <;> simp_all [conj]

@[simp] theorem conj_eq_false : conj l = some false ↔ some false ∈ l := by
  induction l <;> simp_all [conj, @eq_comm _ (some false)]

@[simp] theorem disj_eq_true : disj l = some true ↔ some true ∈ l := by
  induction l <;> simp_all [disj, @eq_comm _ (some true)]

@[simp] theorem disj_eq_false : disj l = some false ↔ ∀ a ∈ l, a = some false := by
  induction l <;> simp_all [disj]

theorem conj_append_singleton : conj (l ++ [a]) = and (conj l) a :=
  ext (by simp [or_imp, forall_and]) (by simp [@eq_comm _ (some false) a])

@[simp] theorem and_true : and a (some true) = a := ext (by simp) (by simp)

theorem disj_map_and {α : Type} {s : List α} (hne : s ≠ []) (f : α → Option Bool) :
    disj (s.map fun x => and a (f x)) = and a (disj (s.map f)) := by
  refine ext (by simp; grind) ?_
  simp only [disj_eq_false, and_eq_false, List.forall_mem_map]
  grind

theorem forall_eq_iff (b : Bool) : (∀ a ∈ l, a = some b) ↔ some (!b) ∉ l ∧ none ∉ l := by
  refine ⟨fun h => ⟨fun hb => ?_, fun hnone => nomatch h _ hnone⟩, fun h a ha => ?_⟩
  · simpa using h _ hb
  · rcases a with _ | a
    · exact absurd ha h.2
    · cases b <;> cases a <;> simp_all

end GengoDB.Kleene
