/-
Strict weak orders, as comparison functions, and sorting by them: what a sorted
list of pointwise larger elements looks like (`getElem_le_of_forall₂`), and
merging sorted sources through a queue that always gives up a least element
(`mergeAll_spec`).
-/
import Mathlib.Data.List.Forall2
import Mathlib.Data.List.GetD
import Mathlib.Data.List.Perm.Basic
import Mathlib.Data.List.Sort
import Mathlib.Order.Basic

namespace GengoDB.WeakOrder

open List

variable {α β : Type} {less : α → α → Bool} {a b x : α} {l : List α} {i m k : ℕ} {srcs : List (List α)}

structure StrictWeak (less : α → α → Bool) : Prop where
  irrefl : ∀ a, less a a = false
  trans : ∀ a b c, less a b = true → less b c = true → less a c = true
  between : ∀ a b c, less a c = true → less a b = true ∨ less b c = true

def Le (less : α → α → Bool) (a b : α) : Prop := less b a = false

def Sorted (less : α → α → Bool) (l : List α) : Prop := l.Pairwise (Le less)

section
variable (h : StrictWeak less)
include h

theorem StrictWeak.comap (f : β → α) : StrictWeak fun a b => less (f a) (f b) :=
  ⟨fun a => h.irrefl (f a), fun a b c => h.trans (f a) (f b) (f c), fun a b c => h.between (f a) (f b) (f c)⟩

theorem StrictWeak.le_refl (a : α) : Le less a a := h.irrefl a

theorem StrictWeak.le_trans {c : α} (hab : Le less a b) (hbc : Le less b c) : Le less a c := by
  unfold Le at *
  by_contra hca
  rcases h.between c b a (by simpa using hca) with hcb | hba
  · rw [hbc] at hcb; cases hcb
  · rw [hab] at hba; cases hba

theorem StrictWeak.lt_of_le_of_lt {c : α} (hab : Le less a b) (hbc : less b c) : less a c := by
  rcases h.between b a c hbc with hba | hac
  · rw [Le, hba] at hab; cases hab
  · exact hac

theorem StrictWeak.lt_of_lt_of_le {c : α} (hab : less a b) (hbc : Le less b c) : less a c := by
  rcases h.between a c b hab with hac | hcb
  · exact hac
  · rw [Le, hcb] at hbc; cases hbc

theorem StrictWeak.le_of_lt (hab : less a b) : Le less a b := by
  unfold Le
  by_contra hba
  have := h.trans a b a hab (by simpa using hba)
  rw [h.irrefl] at this
  cases this

theorem Sorted.getElem_le (hl : Sorted less l) {j : ℕ} (hij : i ≤ j) (hj : j < l.length) : Le less l[i] l[j] := by
  rcases Nat.lt_or_eq_of_le hij with hlt | rfl
  · exact pairwise_iff_getElem.mp hl i j (by omega) hj hlt
  · exact h.le_refl _

end

/-! ## Order statistics -/

theorem countP_le_of_sorted (h : StrictWeak less) (hl : Sorted less l) (hm : m < l.length) :
    l.countP (less · l[m]) ≤ m := by
  have hsplit : l.countP (less · l[m]) = (l.take m).countP (less · l[m]) + (l.drop m).countP (less · l[m]) := by
    rw [← countP_append, take_append_drop]
  have hdrop : (l.drop m).countP (less · l[m]) = 0 := by
    refine countP_eq_zero.mpr fun x hx => ?_
    obtain ⟨k, hk, rfl⟩ := getElem_of_mem hx
    have hlt : m + k < l.length := by rw [length_drop] at hk; omega
    have hle : Le less l[m] l[m + k] := hl.getElem_le h (by omega) hlt
    simpa [Le] using hle
  have htake := countP_le_length (p := (less · l[m])) (l := l.take m)
  rw [length_take] at htake
  omega

theorem lt_countP_of_sorted (h : StrictWeak less) (hl : Sorted less l) (hm : m < l.length) (hx : less l[m] x) :
    m < l.countP (less · x) := by
  have hsplit : l.countP (less · x) = (l.take (m + 1)).countP (less · x) + (l.drop (m + 1)).countP (less · x) := by
    rw [← countP_append, take_append_drop]
  have htake : (l.take (m + 1)).countP (less · x) = (l.take (m + 1)).length := by
    refine countP_eq_length.mpr fun y hy => ?_
    obtain ⟨k, hk, rfl⟩ := getElem_of_mem hy
    rw [getElem_take]
    rw [length_take] at hk
    exact h.lt_of_le_of_lt (hl.getElem_le h (by omega) hm) hx
  rw [length_take] at htake
  omega

theorem countP_le_of_forall₂ (h : StrictWeak less) {l' : List α} (hl : List.Forall₂ (Le less) l l') (x : α) :
    l'.countP (less · x) ≤ l.countP (less · x) := by
  induction hl with
  | nil => exact Nat.le_refl _
  | @cons a b l l' hab _ ih =>
    rw [countP_cons, countP_cons]
    have hstep : (if less b x then 1 else 0) ≤ if less a x then 1 else 0 := by
      split_ifs with hb ha ha
      · exact Nat.le_refl _
      · exact absurd (h.lt_of_le_of_lt hab hb) ha
      · exact Nat.zero_le _
      · exact Nat.le_refl _
    omega

/-- Sorted rearrangements of pointwise ordered lists are pointwise ordered. -/
theorem getElem_le_of_forall₂ (h : StrictWeak less) {l' s s' : List α} (hl : List.Forall₂ (Le less) l l')
    (hs : Sorted less s) (hs' : Sorted less s') (hp : s.Perm l) (hp' : s'.Perm l') (hm : m < s.length)
    (hm' : m < s'.length) : Le less s[m] s'[m] := by
  unfold Le
  by_contra hlt
  have hmany := lt_countP_of_sorted h hs' hm' (by simpa using hlt)
  have hfew := countP_le_of_sorted h hs hm
  rw [hp'.countP_eq] at hmany
  rw [hp.countP_eq] at hfew
  have := countP_le_of_forall₂ h hl s[m]
  omega

/-! ## Merging -/

/-- Take the element at `top` out of the queue, and put in the next one of the
source it came from. -/
def mergeLoop (top : List (α × ℕ) → ℕ) : ℕ → List (α × ℕ) → List (List α) → List α
  | 0, _, _ => []
  | fuel + 1, heap, rest =>
    match heap[top heap]? with
    | none => []
    | some (datum, src) =>
      match rest.getD src [] with
      | [] => datum :: mergeLoop top fuel (heap.eraseIdx (top heap)) rest
      | y :: ys => datum :: mergeLoop top fuel (heap.eraseIdx (top heap) ++ [(y, src)]) (rest.set src ys)

/-- `top` finds a least element. -/
def FindsLeast (less : α → α → Bool) (top : List (α × ℕ) → ℕ) : Prop :=
  ∀ heap, heap ≠ [] → ∃ x, heap[top heap]? = some x ∧ ∀ y ∈ heap, Le less x.1 y.1

/-- The queue has an element of every source that is not used up, ahead of
what is left of it. -/
structure Ready (less : α → α → Bool) (heap : List (α × ℕ)) (rest : List (List α)) : Prop where
  sorted : ∀ l ∈ rest, Sorted less l
  ahead : ∀ x ∈ heap, ∀ y ∈ rest.getD x.2 [], Le less x.1 y
  waits : ∀ k, rest.getD k [] ≠ [] → ∃ x, (x, k) ∈ heap

theorem perm_eraseIdx {l : List β} {x : β} (h : l[i]? = some x) : l.Perm (x :: l.eraseIdx i) := by
  obtain ⟨hi, rfl⟩ := List.getElem?_eq_some_iff.mp h
  exact (getElem_cons_eraseIdx_perm hi).symm

theorem flatten_set_perm : ∀ {rest : List (List α)} {k : ℕ} {y : α} {ys : List α}, rest.getD k [] = y :: ys →
    rest.flatten.Perm (y :: (rest.set k ys).flatten) := by
  intro rest
  induction rest with
  | nil => intro k y ys h; simp at h
  | cons l rest ih =>
    intro k y ys h
    cases k with
    | zero =>
      rw [getD_cons_zero] at h
      rw [h, set_cons_zero]
      exact List.Perm.refl _
    | succ k =>
      exact ((ih h).append_left l).trans perm_middle

theorem getD_mem_of_ne {rest : List (List α)} (h : rest.getD k [] ≠ []) : rest.getD k [] ∈ rest := by
  rw [getD_eq_getElem?_getD] at h ⊢
  cases hk : rest[k]? with
  | none => rw [hk] at h; exact absurd rfl h
  | some l => exact mem_of_getElem? hk

theorem getD_set (rest : List (List α)) (k j : ℕ) (ys : List α) :
    (rest.set k ys).getD j [] = if k = j ∧ k < rest.length then ys else rest.getD j [] := by
  by_cases hkj : k = j
  · subst hkj
    by_cases hk : k < rest.length <;> simp [hk]
  · simp [hkj]

variable {top : List (α × ℕ) → ℕ} {heap : List (α × ℕ)} {rest : List (List α)}

/-- The least element of the queue is the least of all. -/
theorem Ready.le_rest (h : StrictWeak less) (hr : Ready less heap rest) (hx : ∀ y ∈ heap, Le less x y.1) :
    ∀ y ∈ rest.flatten, Le less x y := by
  intro y hy
  obtain ⟨l, hl, hy⟩ := mem_flatten.mp hy
  obtain ⟨k, hk, rfl⟩ := getElem_of_mem hl
  have hget : rest.getD k [] = rest[k] := by simp [hk]
  obtain ⟨z, hz⟩ := hr.waits k (by rw [hget]; exact ne_nil_of_mem hy)
  exact h.le_trans (hx _ hz) (hr.ahead _ hz y (by rw [hget]; exact hy))

theorem Ready.drop (hr : Ready less heap rest) {src : ℕ} (hi : heap[i]? = some (x, src))
    (hsrc : rest.getD src [] = []) : Ready less (heap.eraseIdx i) rest := by
  refine ⟨hr.sorted, fun z hz => hr.ahead z (mem_of_mem_eraseIdx hz), fun k hk => ?_⟩
  obtain ⟨z, hz⟩ := hr.waits k hk
  refine ⟨z, ?_⟩
  rcases mem_cons.mp ((perm_eraseIdx hi).mem_iff.mp hz) with heq | hmem
  · cases heq
    exact absurd hsrc hk
  · exact hmem

theorem Ready.next (hr : Ready less heap rest) {y : α} {ys : List α} {src : ℕ} (hi : heap[i]? = some (x, src))
    (hsrc : rest.getD src [] = y :: ys) : Ready less (heap.eraseIdx i ++ [(y, src)]) (rest.set src ys) := by
  have hmem : y :: ys ∈ rest := hsrc ▸ getD_mem_of_ne (by rw [hsrc]; exact cons_ne_nil _ _)
  have hsorted := pairwise_cons.mp (hr.sorted _ hmem)
  have hlt : src < rest.length := by
    by_contra hge
    rw [getD_eq_default _ _ (by omega)] at hsrc
    cases hsrc
  refine ⟨fun l hl => ?_, fun z hz w hw => ?_, fun k hk => ?_⟩
  · rcases mem_or_eq_of_mem_set hl with hl | rfl
    · exact hr.sorted l hl
    · exact hsorted.2
  · rw [getD_set] at hw
    rcases mem_append.mp hz with hz | hz
    · refine hr.ahead z (mem_of_mem_eraseIdx hz) w ?_
      split at hw
      · next h => rw [← h.1, hsrc]; exact mem_cons_of_mem _ hw
      · exact hw
    · rw [mem_singleton] at hz
      subst hz
      rw [if_pos ⟨rfl, hlt⟩] at hw
      exact hsorted.1 w hw
  · rw [getD_set] at hk
    by_cases hks : src = k
    · subst hks
      exact ⟨y, mem_append_right _ (mem_singleton.mpr rfl)⟩
    · rw [if_neg fun h => hks h.1] at hk
      obtain ⟨z, hz⟩ := hr.waits k hk
      refine ⟨z, mem_append_left _ ?_⟩
      rcases mem_cons.mp ((perm_eraseIdx hi).mem_iff.mp hz) with heq | hmem
      · cases heq
        exact absurd rfl hks
      · exact hmem

/-- **With enough fuel the loop merges the queue and the sources.** -/
theorem mergeLoop_spec (h : StrictWeak less) (htop : FindsLeast less top) : ∀ {fuel : ℕ} {heap : List (α × ℕ)}
    {rest : List (List α)}, Ready less heap rest → heap.length + rest.flatten.length ≤ fuel →
      (mergeLoop top fuel heap rest).Perm (heap.map Prod.fst ++ rest.flatten) ∧
        Sorted less (mergeLoop top fuel heap rest) := by
  intro fuel
  induction fuel with
  | zero =>
    intro heap rest _ hfuel
    obtain rfl : heap = [] := eq_nil_of_length_eq_zero (by omega)
    have : rest.flatten = [] := eq_nil_of_length_eq_zero (by omega)
    rw [this]
    exact ⟨List.Perm.refl _, List.Pairwise.nil⟩
  | succ fuel ih =>
    intro heap rest hr hfuel
    by_cases hheap : heap = []
    · subst hheap
      have hrest : rest.flatten = [] := by
        refine flatten_eq_nil_iff.mpr fun l hl => ?_
        obtain ⟨k, hk, rfl⟩ := getElem_of_mem hl
        by_contra hne
        obtain ⟨x, hx⟩ := hr.waits k (by simpa [hk] using hne)
        cases hx
      rw [hrest]
      simp [mergeLoop, Sorted]
    · obtain ⟨⟨x, src⟩, hx, hleast⟩ := htop heap hheap
      have hall := hr.le_rest h hleast
      have hperm := perm_eraseIdx hx
      have hlen : heap.length = (heap.eraseIdx (top heap)).length + 1 := by
        rw [hperm.length_eq, length_cons]
      -- the rest of the run is a rearrangement of what is left, which is not before `x`
      have hdone : ∀ {out : List α} {heap' : List (α × ℕ)} {rest' : List (List α)},
          (heap.map Prod.fst ++ rest.flatten).Perm (x :: (heap'.map Prod.fst ++ rest'.flatten)) →
          out.Perm (heap'.map Prod.fst ++ rest'.flatten) ∧ Sorted less out →
          (x :: out).Perm (heap.map Prod.fst ++ rest.flatten) ∧ Sorted less (x :: out) := by
        intro out heap' rest' hsplit ⟨hout, hsorted⟩
        have hperm' : (x :: out).Perm (heap.map Prod.fst ++ rest.flatten) := (hout.cons x).trans hsplit.symm
        refine ⟨hperm', pairwise_cons.mpr ⟨fun y hy => ?_, hsorted⟩⟩
        rcases mem_append.mp (hperm'.mem_iff.mp (mem_cons_of_mem x hy)) with hy | hy
        · obtain ⟨z, hz, rfl⟩ := mem_map.mp hy
          exact hleast z hz
        · exact hall y hy
      rw [mergeLoop, hx]
      dsimp only
      split
      · next hsrc =>
        refine hdone ?_ (ih (hr.drop hx hsrc) (by omega))
        exact (hperm.map Prod.fst).append_right _
      · next y ys hsrc =>
        have hflat := flatten_set_perm hsrc
        have hlen' := hflat.length_eq
        rw [length_cons] at hlen'
        refine hdone ?_ (ih (hr.next hx hsrc) (by rw [length_append, length_singleton]; omega))
        rw [map_append, append_assoc]
        exact (hperm.map Prod.fst).append hflat

/-- The queue to start with: the first element of every source. -/
def heads (srcs : List (List α)) : List (α × ℕ) := srcs.zipIdx.filterMap fun src => src.1.head?.map (·, src.2)

def mergeAll (top : List (α × ℕ) → ℕ) (srcs : List (List α)) : List α :=
  mergeLoop top srcs.flatten.length (heads srcs) (srcs.map tail)

theorem mem_heads : (x, k) ∈ heads srcs ↔ ∃ l, srcs[k]? = some (x :: l) := by
  simp only [heads, mem_filterMap, Option.map_eq_some_iff, Prod.mk.injEq, Prod.exists, mem_zipIdx_iff_getElem?]
  constructor
  · rintro ⟨src, i, hsrc, y, hy, rfl, rfl⟩
    obtain ⟨l, rfl⟩ := head?_eq_some_iff.mp hy
    exact ⟨l, hsrc⟩
  · rintro ⟨l, hl⟩
    exact ⟨x :: l, k, hl, x, rfl, rfl, rfl⟩

theorem heads_perm (srcs : List (List α)) :
    ((heads srcs).map Prod.fst ++ (srcs.map tail).flatten).Perm srcs.flatten := by
  have hmap : ∀ (srcs : List (List α)) k,
      ((srcs.zipIdx k).filterMap fun src => src.1.head?.map (·, src.2)).map Prod.fst = srcs.filterMap head? := by
    intro srcs
    induction srcs with
    | nil => exact fun _ => rfl
    | cons l srcs ih => intro k; cases l <;> simp [filterMap_cons, ih]
  rw [heads, hmap]
  induction srcs with
  | nil => exact List.Perm.refl _
  | cons l srcs ih =>
    cases l with
    | nil => simpa [filterMap_cons] using ih
    | cons x l =>
      simp only [filterMap_cons, head?_cons, map_cons, flatten_cons, cons_append]
      refine List.Perm.cons x ?_
      rw [← append_assoc]
      exact ((perm_append_comm.append_right _).trans (List.Perm.of_eq (append_assoc _ _ _))).trans
        (ih.append_left l)

theorem ready_heads (hs : ∀ l ∈ srcs, Sorted less l) : Ready less (heads srcs) (srcs.map tail) := by
  have hget : ∀ k, (srcs.map tail).getD k [] = (srcs[k]?.map tail).getD [] := fun k => by
    rw [getD_eq_getElem?_getD, List.getElem?_map]
  refine ⟨fun l hl => ?_, fun x hx y hy => ?_, fun k hk => ?_⟩
  · obtain ⟨l', hl', rfl⟩ := mem_map.mp hl
    exact (hs l' hl').sublist (tail_sublist l')
  · obtain ⟨l, hl⟩ := mem_heads.mp hx
    rw [hget, hl] at hy
    exact (pairwise_cons.mp (hs _ (mem_of_getElem? hl))).1 y hy
  · rw [hget] at hk
    cases hsrc : srcs[k]? with
    | none => rw [hsrc] at hk; exact absurd rfl hk
    | some l =>
      cases l with
      | nil => rw [hsrc] at hk; exact absurd rfl hk
      | cons x l => exact ⟨x, mem_heads.mpr ⟨l, hsrc⟩⟩

theorem mergeAll_spec (h : StrictWeak less) (htop : FindsLeast less top) (hs : ∀ l ∈ srcs, Sorted less l) :
    (mergeAll top srcs).Perm srcs.flatten ∧ Sorted less (mergeAll top srcs) := by
  have hperm := heads_perm srcs
  have hlen := hperm.length_eq
  rw [length_append, length_map] at hlen
  obtain ⟨hout, hsorted⟩ := mergeLoop_spec h htop (ready_heads hs) (Nat.le_of_eq hlen)
  exact ⟨hout.trans hperm, hsorted⟩

end GengoDB.WeakOrder
