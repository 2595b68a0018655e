/-
`while` loops with fuel. `Loop.run cond body fuel s` runs `body` while `cond`
holds; `none` is a body that failed or fuel that ran out. More fuel never
changes a result (`run_mono`), so what a loop computes does not depend on
how much it was given.

`Loop.count` is the `for` loop whose counter grows by a fixed step and whose
rounds append to a list; unrolled loops are told by it from plain ones
(`count_unrolled`).
-/
import Mathlib.Data.List.Range
import Mathlib.Order.Basic

namespace GengoDB.Loop

open List Nat

variable {σ : Type} {cond : σ → Bool} {body : σ → Option σ} {s s' : σ} {fuel : Nat}

def run (cond : σ → Bool) (body : σ → Option σ) : Nat → σ → Option σ
  | 0, s => if cond s then none else some s
  | fuel + 1, s => if cond s then (body s).bind (run cond body fuel) else some s

theorem run_done (h : cond s = false) : run cond body fuel s = some s := by
  cases fuel <;> simp [run, h]

theorem run_step (h : cond s) : run cond body (fuel + 1) s = (body s).bind (run cond body fuel) := by
  simp [run, h]

/-- **More fuel never changes a result**, nor does a body defined on more
states. -/
theorem run_mono {body' : σ → Option σ} (hb : ∀ s s', body s = some s' → body' s = some s') :
    ∀ {fuel fuel' : Nat} {s : σ}, fuel ≤ fuel' → run cond body fuel s = some s' → run cond body' fuel' s = some s' := by
  intro fuel
  induction fuel with
  | zero =>
    intro fuel' s _ h
    cases hc : cond s with
    | false => rw [run_done hc] at h ⊢; exact h
    | true => simp [run, hc] at h
  | succ fuel ih =>
    intro fuel' s hf h
    obtain ⟨k, rfl⟩ : ∃ k, fuel' = k + 1 := ⟨fuel' - 1, by omega⟩
    cases hc : cond s with
    | false => rw [run_done hc] at h ⊢; exact h
    | true =>
      rw [run_step hc, Option.bind_eq_some_iff] at h ⊢
      obtain ⟨s₁, hs, h⟩ := h
      exact ⟨s₁, hb s s₁ hs, ih (by omega) h⟩

/-- **Invariant rule.** -/
theorem run_inv {I : σ → Prop} (hb : ∀ s s', cond s → I s → body s = some s' → I s') :
    ∀ {fuel : Nat} {s s' : σ}, I s → run cond body fuel s = some s' → I s' := by
  intro fuel
  induction fuel with
  | zero =>
    intro s s' hs h
    cases hc : cond s with
    | false => rw [run_done hc] at h; exact Option.some.inj h ▸ hs
    | true => simp [run, hc] at h
  | succ fuel ih =>
    intro s s' hs h
    cases hc : cond s with
    | false => rw [run_done hc] at h; exact Option.some.inj h ▸ hs
    | true =>
      rw [run_step hc, Option.bind_eq_some_iff] at h
      obtain ⟨s₁, hs₁, h⟩ := h
      exact ih (hb s s₁ hc hs hs₁) h

/-! ## Counting loops -/

section Count

variable {α : Type} {emit : ℕ → List α} {i bound step : ℕ}

/-- `for (; cond i; i += step)`: where the counter stops and what the rounds
appended. -/
def count (cond : ℕ → Bool) (step : ℕ) (emit : ℕ → List α) : ℕ → ℕ → ℕ × List α
  | 0, i => (i, [])
  | fuel + 1, i =>
    if cond i then ((count cond step emit fuel (i + step)).1, emit i ++ (count cond step emit fuel (i + step)).2)
    else (i, [])

/-- How often a counter below `bound` can be raised by `step`. -/
def rounds (bound i step : ℕ) : ℕ := (bound - i + (step - 1)) / step

theorem rounds_of_le (h : bound ≤ i) (hstep : 0 < step) : rounds bound i step = 0 := by
  exact div_eq_of_lt (by omega)

theorem rounds_of_lt (h : i < bound) (hstep : 0 < step) : rounds bound i step = rounds bound (i + step) step + 1 := by
  unfold rounds
  rcases lt_or_ge (bound - i) step with hlt | hge
  · have hzero : bound - (i + step) = 0 := by omega
    have hsum : bound - i + (step - 1) = (bound - i - 1) + step := by omega
    rw [hzero, hsum, add_div_right _ hstep, div_eq_of_lt (by omega), div_eq_of_lt (by omega)]
  · have hsum : bound - i + (step - 1) = bound - (i + step) + (step - 1) + step := by omega
    rw [hsum, add_div_right _ hstep]

theorem rounds_one : rounds bound i 1 = bound - i := by
  simp [rounds]

/-- What a loop with a bound does, given the fuel for it. -/
theorem count_lt (hstep : 0 < step) : ∀ {fuel i : ℕ}, bound ≤ i + fuel → count (fun i => i < bound) step emit fuel i =
      (i + rounds bound i step * step, (range' i (rounds bound i step) step).flatMap emit) := by
  intro fuel
  induction fuel with
  | zero =>
    intro i hf
    rw [rounds_of_le (by omega) hstep]
    simp [count]
  | succ fuel ih =>
    intro i hf
    by_cases hi : i < bound
    · rw [count, if_pos (by simpa using hi), ih (by omega), rounds_of_lt hi hstep, range'_succ, Nat.add_mul]
      exact Prod.ext (by simp only; omega) rfl
    · rw [count, if_neg (by simpa using hi), rounds_of_le (by omega) hstep]
      simp

/-- A loop in steps of one, up to the first counter that ends it. -/
theorem count_until {cond : ℕ → Bool} {a : ℕ} (hstop : cond a = false) : ∀ {fuel i : ℕ}, i ≤ a → a ≤ i + fuel →
    (∀ j, i ≤ j → j < a → cond j) → count cond 1 emit fuel i = (a, (range' i (a - i)).flatMap emit) := by
  intro fuel
  induction fuel with
  | zero =>
    intro i hi hf _
    obtain rfl : i = a := by omega
    simp [count]
  | succ fuel ih =>
    intro i hi hf hcond
    rcases lt_or_eq_of_le hi with hlt | rfl
    · rw [count, if_pos (hcond i (le_refl i) hlt), ih hlt (by omega) fun j hj => hcond j (by omega),
        show a - i = a - (i + 1) + 1 by omega, range'_succ, flatMap_cons]
    · simp [count, hstop]

theorem flatMap_range'_blocks (f : ℕ → List α) (step : ℕ) : ∀ n i : ℕ,
    (range' i n step).flatMap (fun i => (range' i step).flatMap f) = (range' i (n * step)).flatMap f := by
  intro n
  induction n with
  | zero => simp
  | succ n ih =>
    intro i
    rw [range'_succ, flatMap_cons, ih, ← flatMap_append, Nat.add_mul, Nat.one_mul,
      Nat.add_comm (n * step) step, ← range'_append_1]

/-- Blocks of `step` numbers, the last one cut off. -/
theorem flatMap_range_blocks (step bound : ℕ) : ∀ n : ℕ,
    (range n).flatMap (fun u => range' (step * u) (min step (bound - step * u))) = range (min bound (step * n)) := by
  intro n
  induction n with
  | zero => simp
  | succ n ih =>
    rw [range_succ, flatMap_append, ih, flatMap_singleton]
    rcases le_total bound (step * n) with hle | hle
    · rw [Nat.min_eq_left hle, Nat.sub_eq_zero_of_le hle, Nat.min_zero, range'_zero, append_nil, Nat.mul_succ,
        min_eq_left (by omega)]
    · have hglue := range'_append_1 (s := 0) (m := step * n) (n := min step (bound - step * n))
      rw [Nat.zero_add] at hglue
      rw [min_eq_right hle, range_eq_range', hglue, range_eq_range', mul_succ]
      congr 1
      omega

/-- A loop that does `step` rounds at once while they fit below a multiple of
`step`, and the rest one by one, is the plain loop. -/
theorem count_unrolled (f : ℕ → List α) (hstep : 0 < step) (len : ℕ) :
    (count (fun i => i < len / step * step) step (fun i => (range' i step).flatMap f) len 0).2 ++
      (count (fun i => i < len) 1 f len (len / step * step)).2 = (range len).flatMap f := by
  have hle : len / step * step ≤ len := div_mul_le_self len step
  have hrounds : rounds (len / step * step) 0 step = len / step := by
    have hlast : (step - 1) / step = 0 := div_eq_of_lt (by omega)
    rw [rounds, Nat.sub_zero, Nat.mul_comm, Nat.mul_add_div hstep, hlast, Nat.add_zero]
  rw [count_lt hstep (by omega), count_lt Nat.one_pos (by omega), hrounds, rounds_one, flatMap_range'_blocks,
    ← flatMap_append, range_eq_range']
  congr 1
  calc range' 0 (len / step * step) ++ range' (len / step * step) (len - len / step * step)
      = range' 0 (len / step * step + (len - len / step * step)) := by
        simpa using range'_append_1 (s := 0)
    _ = range' 0 len := by rw [Nat.add_sub_cancel' hle]

end Count

end GengoDB.Loop
