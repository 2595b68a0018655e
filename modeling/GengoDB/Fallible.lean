/-
Computations that can fail, and functions that get fuel: a run peeled apart
step by step (`bind_eq_ok`), a list of them (`mapM_eq_map`), and results that
stay the same from some fuel on (`Settles`), which compose as the runs do.
-/
import Mathlib.Data.List.Forall2
import Mathlib.Order.Basic

namespace GengoDB.Fallible

open List

variable {ε α β : Type} {x : Except ε α} {f : α → Option β} {g : α → β}

@[simp] theorem ok_bind (a : α) (f : α → Except ε β) : (Except.ok a >>= f) = f a := rfl

@[simp] theorem error_bind (e : ε) (f : α → Except ε β) : (Except.error e >>= f) = .error e := rfl

theorem bind_eq_ok {f : α → Except ε β} {b : β} : x >>= f = .ok b ↔ ∃ a, x = .ok a ∧ f a = .ok b := by
  cases x with
  | error e => exact ⟨fun h => (nomatch h), fun ⟨_, h, _⟩ => (nomatch h)⟩
  | ok a => exact ⟨fun h => ⟨a, rfl, h⟩, fun ⟨_, ha, h⟩ => by cases ha; exact h⟩

theorem map_eq_ok {f : α → β} {b : β} : x.map f = .ok b ↔ ∃ a, x = .ok a ∧ f a = b := by
  cases x with
  | error e => exact ⟨fun h => (nomatch h), fun ⟨_, h, _⟩ => (nomatch h)⟩
  | ok a => exact ⟨fun h => ⟨a, rfl, Except.ok.inj h⟩, fun ⟨_, ha, h⟩ => by cases ha; exact congrArg Except.ok h⟩

variable {l : List α}

theorem mapM_eq_map {m : Type → Type} [Monad m] [LawfulMonad m] {f : α → m β} (h : ∀ x ∈ l, f x = pure (g x)) :
    l.mapM f = pure (l.map g) := by
  induction l with
  | nil => rfl
  | cons x l ih =>
    rw [mapM_cons, h x mem_cons_self, ih fun y hy => h y (mem_cons_of_mem x hy)]
    simp

theorem exists_mapM (h : ∀ x ∈ l, ∃ y, f x = some y) :
    ∃ ys, l.mapM f = some ys ∧ List.Forall₂ (fun x y => f x = some y) l ys := by
  induction l with
  | nil => exact ⟨[], rfl, .nil⟩
  | cons x l ih =>
    obtain ⟨y, hy⟩ := h x mem_cons_self
    obtain ⟨ys, hys, hrel⟩ := ih fun z hz => h z (mem_cons_of_mem x hz)
    exact ⟨y :: ys, by rw [mapM_cons, hy, hys]; rfl, .cons hy hrel⟩

theorem mapM_eq_none {x : α} (hx : x ∈ l) (hf : f x = none) : l.mapM f = none := by
  induction l with
  | nil => cases hx
  | cons y l ih =>
    rw [mapM_cons]
    rcases mem_cons.mp hx with rfl | hx
    · rw [hf]; rfl
    · rw [ih hx]
      cases f y <;> rfl

/-- What holds after one step. -/
theorem exists_fuel_succ {P : Nat → Prop} (h : ∃ n, ∀ fuel, n ≤ fuel → P (fuel + 1)) :
    ∃ n, ∀ fuel, n ≤ fuel → P fuel := by
  obtain ⟨n, hn⟩ := h
  refine ⟨n + 1, fun fuel hfuel => ?_⟩
  obtain ⟨k, rfl⟩ : ∃ k, fuel = k + 1 := ⟨fuel - 1, by omega⟩
  exact hn k (by omega)

/-- Fuel that is enough for each of finitely many is enough for all. -/
theorem exists_fuel_forall_mem {P : Nat → α → Prop} :
    ∀ {l : List α}, (∀ x ∈ l, ∃ n, ∀ fuel, n ≤ fuel → P fuel x) → ∃ n, ∀ fuel, n ≤ fuel → ∀ x ∈ l, P fuel x
  | [], _ => ⟨0, fun _ _ => by simp⟩
  | x :: l, h => by
    obtain ⟨n, hn⟩ := h x (by simp)
    obtain ⟨m, hm⟩ := exists_fuel_forall_mem fun y hy => h y (mem_cons_of_mem x hy)
    refine ⟨max n m, fun fuel hfuel => forall_mem_cons.2 ⟨hn fuel (by omega), hm fuel (by omega)⟩⟩

/-- From some fuel on, the result. -/
def Settles (f : Nat → Except ε α) (a : α) : Prop := ∃ n, ∀ fuel, n ≤ fuel → f fuel = .ok a

namespace Settles

variable {f : Nat → Except ε α} {a b : α}

theorem const {x : Except ε α} (h : x = .ok a) : Settles (fun _ => x) a := ⟨0, fun _ _ => h⟩

theorem succ (h : Settles (fun fuel => f (fuel + 1)) a) : Settles f a := exists_fuel_succ h

theorem shift (h : Settles f a) : Settles (fun fuel => f (fuel + 1)) a := by
  obtain ⟨n, h⟩ := h
  exact ⟨n, fun fuel hfuel => h (fuel + 1) (by omega)⟩

theorem bind {g : Nat → α → Except ε β} {b : β} (h : Settles f a) (h' : Settles (fun fuel => g fuel a) b) :
    Settles (fun fuel => f fuel >>= g fuel) b := by
  obtain ⟨n, h⟩ := h
  obtain ⟨m, h'⟩ := h'
  refine ⟨max n m, fun fuel hfuel => ?_⟩
  have hf := h fuel (by omega)
  have hg := h' fuel (by omega)
  simp only [hf, ok_bind, hg]

/-- There is one result. -/
theorem unique (h : Settles f a) (h' : Settles f b) : a = b := by
  obtain ⟨n, h⟩ := h
  obtain ⟨m, h'⟩ := h'
  exact Except.ok.inj ((h (max n m) (by omega)).symm.trans (h' (max n m) (by omega)))

end Settles

end GengoDB.Fallible
