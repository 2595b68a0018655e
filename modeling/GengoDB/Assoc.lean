/-
Maps as association lists. `emplace` adds a binding unless the key has one,
`insert` replaces it; `lookup_emplace` and `lookup_insert` say what each does
to every lookup. A map with one binding per key looks the same in whatever
order its bindings come (`lookup_perm`). Filled with the elements of a list it
is the map back (`lookup_foldl_zipIdx`).
-/
import Mathlib.Data.List.Induction
import Mathlib.Data.List.Nodup
import Mathlib.Data.List.Perm.Basic

namespace GengoDB.Assoc

open List

variable {κ ν μ : Type*} [BEq κ] {l l' : List (κ × ν)} {k k' : κ} {v : ν}

/-- A binding of a new key; a key that has one keeps it. -/
def emplace (l : List (κ × ν)) (k : κ) (v : ν) : List (κ × ν) :=
  if (l.lookup k).isSome then l else l ++ [(k, v)]

/-- A binding in place of the one the key may have. -/
def insert (l : List (κ × ν)) (k : κ) (v : ν) : List (κ × ν) := (k, v) :: l.filter (·.1 != k)

theorem lookup_map (f : ν → μ) (l : List (κ × ν)) (k : κ) :
    (l.map fun e => (e.1, f e.2)).lookup k = (l.lookup k).map f := by
  induction l with
  | nil => rfl
  | cons e l ih =>
    rw [map_cons, lookup_cons, lookup_cons, ih]
    cases k == e.1 <;> rfl

variable [LawfulBEq κ]

theorem lookup_cons_of_ne (h : k' ≠ k) : ((k, v) :: l).lookup k' = l.lookup k' := by
  rw [lookup_cons, beq_false_of_ne h]

theorem lookup_emplace [DecidableEq κ] (l : List (κ × ν)) (k k' : κ) (v : ν) :
    (emplace l k v).lookup k' = (l.lookup k').or (if k' = k then some v else none) := by
  unfold emplace
  split
  · next h =>
    obtain ⟨w, hw⟩ := Option.isSome_iff_exists.1 h
    split
    · next hk => subst hk; simp [hw]
    · simp
  · rw [lookup_append]
    by_cases hk : k' = k
    · subst hk; simp
    · rw [lookup_cons_of_ne hk, if_neg hk]; rfl

theorem lookup_filter_of_ne (h : k' ≠ k) : (l.filter (·.1 != k)).lookup k' = l.lookup k' := by
  induction l with
  | nil => rfl
  | cons e l ih =>
    rw [filter_cons, lookup_cons, ← ih]
    split
    · rw [lookup_cons]
    · next hk =>
      obtain rfl : e.1 = k := by simpa using hk
      rw [beq_false_of_ne h]

theorem lookup_insert [DecidableEq κ] (l : List (κ × ν)) (k k' : κ) (v : ν) :
    (insert l k v).lookup k' = if k' = k then some v else l.lookup k' := by
  split
  · next h => subst h; exact lookup_cons_self
  · next h => rw [insert, lookup_cons_of_ne h, lookup_filter_of_ne h]

theorem nodup_insert (h : (l.map (·.1)).Nodup) (k : κ) (v : ν) : ((insert l k v).map (·.1)).Nodup := by
  have hsub := (filter_sublist (p := fun e => e.1 != k) (l := l)).map (·.1)
  exact nodup_cons.2 ⟨by simp, h.sublist hsub⟩

theorem mem_of_lookup (h : l.lookup k = some v) : (k, v) ∈ l := by
  obtain ⟨l₁, l₂, rfl, -⟩ := lookup_eq_some_iff.1 h
  simp

/-- With one binding per key, a lookup is a membership. -/
theorem lookup_eq_some_iff (hnd : (l.map (·.1)).Nodup) : l.lookup k = some v ↔ (k, v) ∈ l := by
  refine ⟨mem_of_lookup, fun h => ?_⟩
  induction l with
  | nil => cases h
  | cons e l ih =>
    obtain ⟨a, x⟩ := e
    obtain ⟨ha, hnd⟩ := nodup_cons.1 hnd
    obtain he | h := mem_cons.1 h
    · cases he; exact lookup_cons_self
    · have hne : k ≠ a := fun hk => ha (hk ▸ mem_map_of_mem (f := (·.1)) h)
      rw [lookup_cons_of_ne hne, ih hnd h]

/-- The order of the bindings does not matter. -/
theorem lookup_perm (hp : l.Perm l') (hnd : (l.map (·.1)).Nodup) (k : κ) : l.lookup k = l'.lookup k := by
  have hnd' := (hp.map (·.1)).nodup_iff.1 hnd
  ext v
  rw [lookup_eq_some_iff hnd, lookup_eq_some_iff hnd', hp.mem_iff]

/-- New keys are all taken up. -/
theorem foldl_emplace (h : ((l ++ l').map (·.1)).Nodup) : l'.foldl (fun l e => emplace l e.1 e.2) l = l ++ l' := by
  induction l' generalizing l with
  | nil => simp
  | cons e l' ih =>
    have hnew : l.lookup e.1 = none := by
      rw [lookup_eq_none_iff]
      intro p hp
      rw [map_append, nodup_append] at h
      simpa using fun he : e.1 = p.1 => h.2.2 p.1 (mem_map_of_mem hp) e.1 (by simp) he.symm
    rw [foldl_cons, emplace, hnew]
    simpa using ih (l := l ++ [e]) (by simpa using h)

/-- Of new bindings with one for each key, all are taken up. -/
theorem lookup_foldl_insert [DecidableEq κ] (h : (l'.map (·.1)).Nodup) (k : κ) :
    (l'.foldl (fun l e => insert l e.1 e.2) l).lookup k = (l'.lookup k).or (l.lookup k) := by
  induction l' generalizing l with
  | nil => rfl
  | cons e l' ih =>
    obtain ⟨a, v⟩ := e
    obtain ⟨ha, h⟩ := nodup_cons.1 h
    rw [foldl_cons, ih h, lookup_insert]
    by_cases hk : k = a
    · subst hk
      have hnone : l'.lookup k = none := lookup_eq_none_iff.2 fun p hp => by
        simpa using fun heq : k = p.1 => ha (mem_map.2 ⟨p, hp, heq.symm⟩)
      rw [hnone, if_pos rfl, lookup_cons_self]
      rfl
    · rw [if_neg hk, lookup_cons_of_ne hk]

/-! ## Positions -/

theorem idxOf?_append_singleton [DecidableEq κ] (ks : List κ) (k k' : κ) :
    (ks ++ [k]).idxOf? k' = (ks.idxOf? k').or (if k' = k then some ks.length else none) := by
  rw [idxOf?]
  by_cases h : k' = k
  · simp [h]
  · have hne : (k == k') = false := beq_false_of_ne (Ne.symm h)
    simp [h, hne]

/-- A map filled with the elements of a list knows where each is first. -/
theorem lookup_foldl_zipIdx [DecidableEq κ] (ks : List κ) (k : κ) :
    (ks.zipIdx.foldl (fun m e => emplace m e.1 e.2) []).lookup k = ks.idxOf? k := by
  induction ks using reverseRecOn with
  | nil => rfl
  | append_singleton ks a ih =>
    rw [zipIdx_append, idxOf?_append_singleton, ← ih]
    simp [lookup_emplace]

variable {α : Type*} {a : α}

theorem getElem?_append_singleton_iff {l : List α} {b : α} {i : Nat} :
    (l ++ [a])[i]? = some b ↔ l[i]? = some b ∨ (i = l.length ∧ a = b) := by
  rcases Nat.lt_trichotomy i l.length with hlt | rfl | hgt
  · simp [List.getElem?_append_left hlt, Nat.ne_of_lt hlt]
  · simp
  · have hout : (l ++ [a])[i]? = none := List.getElem?_eq_none (by simpa using Nat.succ_le_of_lt hgt)
    simp [hout, List.getElem?_eq_none (Nat.le_of_lt hgt), Nat.ne_of_gt hgt]

theorem nodup_append_singleton {l : List α} (h : l.Nodup) (hnew : a ∉ l) : (l ++ [a]).Nodup := by
  rw [← concat_eq_append]
  exact h.concat hnew

theorem nodup_getElem?_inj {l : List α} {i j : Nat} (h : l.Nodup) (hi : l[i]? = some a) (hj : l[j]? = some a) : i = j :=
  (List.getElem?_inj (List.getElem?_eq_some_iff.1 hi).1 h).1 (hi.trans hj.symm)

/-- Where an element stands in a list without repetitions. -/
theorem idxOf?_eq_some_iff_getElem? [BEq α] [LawfulBEq α] {l : List α} {i : Nat} (h : l.Nodup) :
    l.idxOf? a = some i ↔ l[i]? = some a := by
  rw [idxOf?_eq_some_iff]
  constructor
  · intro ⟨hlt, hget, _⟩
    rw [List.getElem?_eq_getElem hlt, hget]
  · intro hi
    obtain ⟨hlt, hget⟩ := List.getElem?_eq_some_iff.1 hi
    refine ⟨hlt, hget, fun j hj he => ?_⟩
    have hj' : l[j]? = some a := by rw [List.getElem?_eq_getElem (Nat.lt_trans hj hlt), he]
    exact Nat.ne_of_lt hj (nodup_getElem?_inj h hj' hi)

theorem getElem?_of_isPrefix {l l' : List α} {n : Nat} {x : α} (h : l <+: l') (hn : l[n]? = some x) :
    l'[n]? = some x := by
  obtain ⟨hlt, hget⟩ := List.getElem?_eq_some_iff.1 hn
  rw [prefix_iff_getElem?.1 h n hlt, hget]

/-- A scan of positions that gives what belongs to each. -/
theorem filterMap_range_eq_map {β : Type*} {l : List α} {f : Nat → Option β} {F : α → β}
    (h : ∀ (i : Nat) (hi : i < l.length), f i = some (F l[i])) : (range l.length).filterMap f = l.map F := by
  induction l using reverseRecOn with
  | nil => rfl
  | append_singleton l a ih =>
    have hlast : f l.length = some (F a) := by simpa using h l.length (by simp)
    have hold : ∀ (i : Nat) hi, f i = some (F l[i]) := by
      intro i hi
      rw [h i (by rw [length_append]; omega), getElem_append_left hi]
    rw [length_append, length_singleton, range_succ, filterMap_append, ih hold]
    simp [hlast]

end GengoDB.Assoc
