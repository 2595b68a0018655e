/-
Slot allocation in a fixed-capacity table: a high-water mark below which
every slot has been handed out at least once, and a stack of the slots given
back since. `alloc` pops the stack before it moves the mark.

`Pool.Tracks p used` is the discipline: the slots below the mark are exactly
the used ones and the free ones, no slot is both, and the stack names none
twice. `Tracks.alloc` and `Tracks.release` are its two rules.
-/
import Mathlib.Algebra.Ring.Int.Defs
import Mathlib.Data.List.Nodup
import Mathlib.Logic.Function.Basic

namespace GengoDB

/-- High-water mark, capacity, and the stack of freed slots (top first). -/
structure Pool where
  mark : Int
  cap : Int
  free : List Int
  deriving DecidableEq

namespace Pool

open Function (update)

/-- A table of `cap` slots, none handed out. -/
def empty (cap : Int) : Pool := { mark := 0, cap, free := [] }

/-- Hand out a slot: the last one freed, otherwise the one at the mark.
`none` is the failed assertion that the capacity suffices. -/
def alloc (p : Pool) : Option (Int × Pool) :=
  match p.free with
  | id :: rest => some (id, { p with free := rest })
  | [] => if p.mark < p.cap then some (p.mark, { p with mark := p.mark + 1 }) else none

/-- Give a slot back. -/
def release (p : Pool) (id : Int) : Pool := { p with free := id :: p.free }

/-- One more slot can be handed out. -/
def HasRoom (p : Pool) : Prop := p.free ≠ [] ∨ p.mark < p.cap

instance (p : Pool) : Decidable p.HasRoom := inferInstanceAs (Decidable (_ ∨ _))

/-- `used` is what the pool has handed out and not taken back. -/
structure Tracks (p : Pool) (used : Int → Bool) : Prop where
  mark_nonneg : 0 ≤ p.mark
  mark_le : p.mark ≤ p.cap
  nodup : p.free.Nodup
  slot : ∀ id, (0 ≤ id ∧ id < p.mark) ↔ (used id = true ∨ id ∈ p.free)
  free_unused : ∀ id ∈ p.free, used id = false

variable {p p' : Pool} {used used' : Int → Bool} {id : Int}

/-- A slot is allocated, and `k` fills it in. -/
theorem alloc_map_eq_some {α : Type} {a : α} (k : Int → Pool → α) :
    (p.alloc.map fun r => (r.1, k r.1 r.2)) = some (id, a) ↔ ∃ q, p.alloc = some (id, q) ∧ a = k id q := by
  rw [Option.map_eq_some_iff]
  constructor
  · rintro ⟨⟨_, q⟩, h, ⟨⟩⟩
    exact ⟨q, h, rfl⟩
  · rintro ⟨q, h, rfl⟩
    exact ⟨_, h, rfl⟩

theorem Tracks.empty {cap : Int} (h : 0 ≤ cap) : Tracks (empty cap) fun _ => false where
  mark_nonneg := Int.le_refl 0
  mark_le := h
  nodup := .nil
  slot := by simp [Pool.empty]
  free_unused := by simp

theorem Tracks.congr (h : Tracks p used) (hu : ∀ id, used' id = used id) : Tracks p used' := by
  rwa [funext hu]

theorem Tracks.bounds (h : Tracks p used) (hid : used id) : 0 ≤ id ∧ id < p.mark := (h.slot id).2 (.inl hid)

theorem Tracks.not_free (h : Tracks p used) (hid : used id) : id ∉ p.free := fun hm => by
  simp [h.free_unused id hm] at hid

theorem alloc_isSome (h : p.HasRoom) : ∃ r, p.alloc = some r := by
  unfold alloc
  split
  · exact ⟨_, rfl⟩
  · next hf => exact ⟨_, if_pos (h.resolve_left (fun hne => hne hf))⟩

theorem alloc_cap (h : p.alloc = some (id, p')) : p'.cap = p.cap := by
  unfold alloc at h
  split at h
  · cases h; rfl
  · split at h
    · cases h; rfl
    · cases h

/-- **Allocation** hands out an unused slot inside the table. -/
theorem Tracks.alloc (h : Tracks p used) (ha : p.alloc = some (id, p')) :
    used id = false ∧ 0 ≤ id ∧ id < p.cap ∧ Tracks p' (update used id true) := by
  obtain ⟨h0, hcap, hnd, hslot, hfree⟩ := h
  unfold Pool.alloc at ha
  split at ha
  · next top rest hf =>
    cases ha
    rw [hf] at hnd hfree hslot
    have hid := (hslot id).2 (.inr (by simp))
    have htop := (List.nodup_cons.1 hnd).1
    refine ⟨hfree id (by simp), hid.1, by omega, h0, hcap, (List.nodup_cons.1 hnd).2, ?_, ?_⟩
    · intro x
      rw [hslot x]
      by_cases hx : x = id <;> simp [hx]
    · intro x hx
      have hne : x ≠ id := fun he => htop (he ▸ hx)
      rw [Function.update_of_ne hne]
      exact hfree x (by simp [hx])
  · next hf =>
    split at ha
    · next hlt =>
      cases ha
      have hunused : used p.mark = false := by
        by_contra hu
        have := (hslot p.mark).2 (.inl (by simpa using hu))
        omega
      refine ⟨hunused, h0, hlt, Int.le_add_one h0, Int.add_one_le_of_lt hlt, hnd, ?_, ?_⟩
      · intro x
        have := hslot x
        by_cases hx : x = p.mark
        · subst hx; simp; omega
        · rw [Function.update_of_ne hx, ← this]
          simp; omega
      · simp [hf]
    · cases ha

/-- **Release** takes a used slot back. -/
theorem Tracks.release (h : Tracks p used) (hid : used id) : Tracks (p.release id) (update used id false) where
  mark_nonneg := h.mark_nonneg
  mark_le := h.mark_le
  nodup := List.nodup_cons.2 ⟨h.not_free hid, h.nodup⟩
  slot x := by
    have hx := h.slot x
    by_cases he : x = id
    · subst he; simpa [Pool.release] using h.bounds hid
    · simpa [Pool.release, he] using hx
  free_unused x hx := by
    by_cases he : x = id
    · simp [he]
    · rw [Function.update_of_ne he]
      exact h.free_unused x (by simpa [Pool.release, he] using hx)

/-- Hand out `n` slots. -/
def allocs : Nat → Pool → Option Pool
  | 0, p => some p
  | n + 1, p => p.alloc.bind fun a => allocs n a.2

/-- The free slots and those above the mark can be handed out, and no more. -/
theorem allocs_isSome_iff {n : Nat} (h : p.mark ≤ p.cap) :
    (p.allocs n).isSome ↔ (n : Int) ≤ p.free.length + (p.cap - p.mark) := by
  induction n generalizing p with
  | zero => simp [allocs]; omega
  | succ n ih =>
    cases hf : p.free with
    | cons id rest =>
      have ha : p.alloc = some (id, { p with free := rest }) := by simp [alloc, hf]
      have hrest := ih (p := { p with free := rest }) h
      rw [allocs, ha, Option.bind_some, hrest]
      simp only [List.length_cons]
      omega
    | nil =>
      by_cases hlt : p.mark < p.cap
      · have ha : p.alloc = some (p.mark, { p with mark := p.mark + 1 }) := by simp [alloc, hf, hlt]
        have hrest := ih (p := { p with mark := p.mark + 1 }) (Int.add_one_le_of_lt hlt)
        rw [allocs, ha, Option.bind_some, hrest]
        simp only [hf]
        omega
      · have ha : p.alloc = none := by simp [alloc, hf, hlt]
        rw [allocs, ha, Option.bind_none]
        simp only [Option.isSome_none, Bool.false_eq_true, List.length_nil, false_iff]
        omega

end Pool
end GengoDB
