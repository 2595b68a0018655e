/-
Intrusive doubly linked lists: a header cell and two link fields stored in
the elements themselves, as a pool of records indexed by `ι` holds them.

`Dll.Chain nil d l` says that the list `d` threads exactly the cells `l`, in
that order: the header points at the first, every cell's `next` at its
successor and `prev` at its predecessor, and `nil` closes both ends. The two
destructive updates, `pushFront` and `unlink`, are the usual O(1) pointer
writes; each is shown to do to `l` what its name says. Nothing here knows
what the cells are — the same rules serve every list of the store.
-/
import Mathlib.Data.List.Nodup
import Mathlib.Logic.Function.Basic

namespace GengoDB

open List

/-- The pointers of one list: its header and the link fields of every cell. -/
@[ext] structure Dll (ι : Type) where
  head : ι
  next : ι → ι
  prev : ι → ι

namespace Dll

open Function (update update_self update_of_ne)

variable {ι : Type} {nil : ι} {l l₁ l₂ : List ι} {d d' : Dll ι} {x : ι}

/-- The first cell of a list, or `nil`. -/
def firstOr (nil : ι) : List ι → ι
  | [] => nil
  | x :: _ => x

/-- The last cell of a list, or `q`. -/
def lastOr : ι → List ι → ι
  | q, [] => q
  | _, x :: l => lastOr x l

/-- The cells `l` are linked to one another and `q` precedes the first. -/
def Linked (nil : ι) (d : Dll ι) : ι → List ι → Prop
  | _, [] => True
  | q, x :: l => x ≠ nil ∧ d.prev x = q ∧ d.next x = firstOr nil l ∧ Linked nil d x l

/-- The list `d` threads exactly the cells `l`. -/
def Chain (nil : ι) (d : Dll ι) (l : List ι) : Prop :=
  d.head = firstOr nil l ∧ Linked nil d nil l

/-! ## Linked segments -/

@[simp] theorem firstOr_nil : firstOr nil [] = nil := rfl

@[simp] theorem firstOr_cons (x : ι) (l : List ι) : firstOr nil (x :: l) = x := rfl

theorem firstOr_mem (h : firstOr nil l ≠ nil) : firstOr nil l ∈ l := by
  cases l with
  | nil => exact absurd rfl h
  | cons x l => exact .head _

theorem lastOr_mem : ∀ (l : List ι) q, lastOr q l ∈ q :: l
  | [], _ => .head _
  | x :: l, _ => .tail _ (lastOr_mem l x)

theorem Linked.ne_nil : ∀ {l : List ι} {q x : ι}, Linked nil d q l → x ∈ l → x ≠ nil
  | _ :: _, _, _, h, .head _ => h.1
  | _ :: _, _, _, h, .tail _ hx => Linked.ne_nil h.2.2.2 hx

/-- **Frame rule.** Only the links of the cells on the list matter. -/
theorem Linked.congr : ∀ {l : List ι} {q : ι}, Linked nil d q l →
    (∀ x ∈ l, d'.next x = d.next x ∧ d'.prev x = d.prev x) → Linked nil d' q l
  | [], _, _, _ => trivial
  | x :: l, q, ⟨hx, hp, hn, hl⟩, hs => by
    obtain ⟨hn', hp'⟩ := hs x (by simp)
    exact ⟨hx, hp'.trans hp, hn'.trans hn, hl.congr fun y hy => hs y (by simp [hy])⟩

/-- The neighbours of a cell, read off its position. -/
theorem Linked.neighbours : ∀ (l₁ : List ι) {q x : ι} {l₂ : List ι},
    Linked nil d q (l₁ ++ x :: l₂) → d.prev x = lastOr q l₁ ∧ d.next x = firstOr nil l₂
  | [], _, _, _, ⟨_, hp, hn, _⟩ => ⟨hp, hn⟩
  | _ :: l₁, _, _, _, ⟨_, _, _, hl⟩ => Linked.neighbours l₁ hl

/-! ## Whole lists -/

section
variable (h : Chain nil d l)
include h

theorem Chain.ne_nil (hx : x ∈ l) : x ≠ nil := h.2.ne_nil hx

theorem Chain.congr (hh : d'.head = d.head)
    (hs : ∀ x ∈ l, d'.next x = d.next x ∧ d'.prev x = d.prev x) : Chain nil d' l :=
  ⟨hh.trans h.1, h.2.congr hs⟩

theorem Chain.head_mem (hh : d.head ≠ nil) : d.head ∈ l := by
  rw [h.1] at hh ⊢
  exact firstOr_mem hh

theorem Chain.next_mem (hx : x ∈ l) (hn : d.next x ≠ nil) : d.next x ∈ l := by
  obtain ⟨l₁, l₂, rfl⟩ := append_of_mem hx
  rw [(h.2.neighbours l₁).2] at hn ⊢
  exact mem_append_right _ (.tail _ (firstOr_mem hn))

theorem Chain.prev_mem (hx : x ∈ l) (hp : d.prev x ≠ nil) : d.prev x ∈ l := by
  obtain ⟨l₁, l₂, rfl⟩ := append_of_mem hx
  rw [(h.2.neighbours l₁).1] at hp ⊢
  exact mem_append_left _ ((mem_cons.1 (lastOr_mem l₁ nil)).resolve_left hp)

end

/-- Two neighbours on the list point at each other. -/
theorem Chain.adjacent {y : ι} (h : Chain nil d (l₁ ++ x :: y :: l₂)) : d.next x = y ∧ d.prev y = x := by
  refine ⟨(h.2.neighbours l₁).2, ?_⟩
  have hl : Linked nil d nil ((l₁ ++ [x]) ++ y :: l₂) := by simpa using h.2
  have hlast : ∀ (l : List ι) q, lastOr q (l ++ [x]) = x := by
    intro l
    induction l with
    | nil => intro q; rfl
    | cons a l ih => intro q; exact ih a
  rw [(hl.neighbours (l₁ ++ [x])).1, hlast]

/-! ## Walking a list -/

variable [DecidableEq ι]

/-- Follow `next` from the cell `p` until `nil`, collecting the cells visited;
`none` when `fuel` cells did not suffice. -/
def walk (nil : ι) (next : ι → ι) : Nat → ι → Option (List ι)
  | 0, p => if p = nil then some [] else none
  | fuel + 1, p => if p = nil then some [] else (walk nil next fuel (next p)).map (p :: ·)

theorem Linked.walk_eq : ∀ {l : List ι} {q : ι} {fuel : Nat}, Linked nil d q l →
    l.length ≤ fuel → walk nil d.next fuel (firstOr nil l) = some l
  | [], _, 0, _, _ | [], _, _ + 1, _, _ => by simp [walk]
  | x :: l, _, fuel + 1, ⟨hx, _, hn, hl⟩, hf => by
    have hf : l.length ≤ fuel := by simpa using hf
    simp [walk, if_neg hx, hn, hl.walk_eq hf]

/-- **A chain is what a walk from its header visits.** -/
theorem Chain.walk_eq {fuel : Nat} (h : Chain nil d l) (hf : l.length ≤ fuel) :
    walk nil d.next fuel d.head = some l := by
  rw [h.1]
  exact h.2.walk_eq hf

theorem Linked.eq_of_walk : ∀ {l : List ι} {q : ι} {fuel : Nat} {l' : List ι}, Linked nil d q l →
    walk nil d.next fuel (firstOr nil l) = some l' → l' = l
  | [], _, 0, _, _, h | [], _, _ + 1, _, _, h => by simpa [walk] using h
  | x :: l, _, 0, _, ⟨hx, _, _, _⟩, h => by simp [walk, hx] at h
  | x :: l, _, fuel + 1, l', ⟨hx, _, hn, hl⟩, h => by
    simp only [walk, firstOr_cons, if_neg hx, hn, Option.map_eq_some_iff] at h
    obtain ⟨l₁, hw, rfl⟩ := h
    rw [hl.eq_of_walk hw]

/-- A walk that ends visited the chain, whatever its fuel. -/
theorem Chain.eq_of_walk {l' : List ι} {fuel : Nat} (h : Chain nil d l) (hw : walk nil d.next fuel d.head = some l') :
    l' = l := by
  rw [h.1] at hw
  exact h.2.eq_of_walk hw

/-! ## Updates -/

/-- Link the cell `x` in front of the list. -/
def pushFront (nil : ι) (d : Dll ι) (x : ι) : Dll ι where
  head := x
  next := update d.next x d.head
  prev := if d.head = nil then update d.prev x nil else update (update d.prev x nil) d.head x

/-- Take the cell `x` out of the list; `x` keeps its own link fields. -/
def unlink (nil : ι) (d : Dll ι) (x : ι) : Dll ι where
  head := if d.prev x = nil then d.next x else d.head
  next := if d.prev x = nil then d.next else update d.next (d.prev x) (d.next x)
  prev := if d.next x = nil then d.prev else update d.prev (d.next x) (d.prev x)

theorem unlink_next_of_ne {z : ι} (h : z ≠ d.prev x) : (d.unlink nil x).next z = d.next z := by
  simp only [unlink]
  split
  · rfl
  · exact update_of_ne h _ _

theorem unlink_prev_of_ne {z : ι} (h : z ≠ d.next x) : (d.unlink nil x).prev z = d.prev z := by
  simp only [unlink]
  split
  · rfl
  · exact update_of_ne h _ _

/-- **Pushing.** A new cell becomes the first of the list. -/
theorem Chain.pushFront (h : Chain nil d l) (hnd : l.Nodup) (hx : x ≠ nil) (hxl : x ∉ l) :
    Chain nil (d.pushFront nil x) (x :: l) := by
  have hxh : d.head ≠ nil → x ≠ d.head := fun h0 he => hxl (he ▸ h.head_mem h0)
  obtain ⟨hh, hl⟩ := h
  refine ⟨rfl, hx, ?_, by simp [Dll.pushFront, hh], ?_⟩
  · by_cases h0 : d.head = nil <;> simp [Dll.pushFront, h0, hxh]
  · cases l with
    | nil => trivial
    | cons y l =>
      obtain ⟨hy, -, hn, hl⟩ := hl
      have hhy : d.head = y := hh
      have hyx : y ≠ x := fun he => hxl (by simp [he])
      refine ⟨hy, by simp [Dll.pushFront, hhy, hy], by simpa [Dll.pushFront, hyx] using hn, hl.congr ?_⟩
      intro z hz
      have hzx : z ≠ x := fun he => hxl (by simp [← he, hz])
      have hzy : z ≠ y := fun he => (nodup_cons.1 hnd).1 (he ▸ hz)
      simp [Dll.pushFront, hhy, hy, hzx, hzy]

/-- Unlinking a cell closes the gap between its neighbours. The predecessor
`q` is rewritten only when it is a cell (`q ≠ nil`) — it is then outside the
segment, so the induction carries `q ∉ l` along. -/
theorem Linked.unlink : ∀ (l₁ : List ι) {q : ι}, Linked nil d q (l₁ ++ x :: l₂) → (q :: (l₁ ++ x :: l₂)).Nodup →
    Linked nil (d.unlink nil x) q (l₁ ++ l₂)
  | [], q, ⟨_, hp, hn, hl⟩, hnd => by
    cases l₂ with
    | nil => trivial
    | cons y l₃ =>
      obtain ⟨hy, -, hny, hl₃⟩ := hl
      have hnd₂ : (q :: y :: l₃).Nodup := hnd.sublist (by simp)
      have hqy : ∀ z ∈ y :: l₃, z ≠ d.prev x := by
        rw [hp]; exact fun z hz he => (nodup_cons.1 hnd₂).1 (he ▸ hz)
      refine ⟨hy, ?_, (unlink_next_of_ne (hqy y (by simp))).trans hny, hl₃.congr ?_⟩
      · simp [Dll.unlink, show d.next x = y from hn, hy, hp]
      · intro z hz
        have hzy : z ≠ d.next x := by
          rw [show d.next x = y from hn]
          exact fun he => (nodup_cons.1 (nodup_cons.1 hnd₂).2).1 (he ▸ hz)
        exact ⟨unlink_next_of_ne (hqy z (by simp [hz])), unlink_prev_of_ne hzy⟩
  | a :: l₁, q, ⟨ha, hpa, hna, hl⟩, hnd => by
    obtain ⟨hpx, hnx⟩ := Linked.neighbours l₁ hl
    have hnd' : (a :: (l₁ ++ x :: l₂)).Nodup := (nodup_cons.1 hnd).2
    have hal : a ∉ l₁ ++ x :: l₂ := (nodup_cons.1 hnd').1
    have hanx : a ≠ d.next x := by
      intro he
      have hne : firstOr nil l₂ ≠ nil := by rw [← hnx, ← he]; exact ha
      exact hal (by rw [he, hnx]; simp [firstOr_mem hne])
    refine ⟨ha, (unlink_prev_of_ne hanx).trans hpa, ?_, Linked.unlink l₁ hl hnd'⟩
    cases l₁ with
    | nil =>
      -- `a` is the predecessor of `x` and takes over its successor.
      simp only [lastOr] at hpx
      simp [Dll.unlink, hpx, ha, hnx]
    | cons b l₁ =>
      have hab : a ≠ d.prev x := fun he =>
        hal (mem_append_left _ (by rw [he, hpx]; exact lastOr_mem l₁ b))
      exact (unlink_next_of_ne hab).trans hna

/-- **Unlinking.** The cell leaves the list, the others keep their order. -/
theorem Chain.unlink (h : Chain nil d (l₁ ++ x :: l₂)) (hnd : (l₁ ++ x :: l₂).Nodup) :
    Chain nil (d.unlink nil x) (l₁ ++ l₂) := by
  obtain ⟨hpx, hnx⟩ := h.2.neighbours l₁
  refine ⟨?_, h.2.unlink l₁ (nodup_cons.2 ⟨fun hm => h.ne_nil hm rfl, hnd⟩)⟩
  cases l₁ with
  | nil => simpa [Dll.unlink, lastOr, hpx] using hnx
  | cons a l₁ =>
    have hne : d.prev x ≠ nil := by
      rw [hpx]
      exact h.ne_nil (mem_append_left _ (lastOr_mem l₁ a))
    simpa [Dll.unlink, hne] using h.1

end Dll
end GengoDB
