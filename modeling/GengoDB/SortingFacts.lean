/-
The parallel sample sort sorts, or fails.

Splits, separators and pieces are followed by their positions in the input
with sorted splits: `pieceFirst` of a split is monotone in the number of the
piece, since the separator values are (`sepVal_le`), so the pieces of all
splits tile the input, and what is before a separator value in one split is
not after it in another.

The splits are of equal size, rounded up. With many splits the last one can
begin at or behind the end of the input: `parallelSort_sorts_iff`.
-/
import GengoDB.Fallible
import GengoDB.Sorting
import Mathlib.Data.Multiset.Bind

namespace GengoDB.Sorting

open WeakOrder List Nat Option Fallible List

/-! ## Split and separator counts -/

theorem normalizeSepCnt_pos {inputSize splitCnt seperatorCnt : ℕ} (hsep : 0 < seperatorCnt)
    (hsize : 8 ≤ inputSize / splitCnt) : 0 < normalizeSepCnt inputSize splitCnt seperatorCnt := by
  unfold normalizeSepCnt
  dsimp only
  split
  · exact div_pos hsize (by decide)
  · exact hsep

theorem calcSplitSeperator_pos {inputSize workerNum : ℕ} (hn : canParallelSort inputSize) (hw : 1 ≤ workerNum) :
    0 < (calcSplitSeperator inputSize workerNum).1 ∧ 0 < (calcSplitSeperator inputSize workerNum).2 := by
  have hn : 512 < inputSize := of_decide_eq_true hn
  -- a split has at least 512 elements
  have hsplit : ∀ a, 512 ≤ a → a ≤ inputSize → 0 < inputSize / a ∧ 8 ≤ inputSize / (inputSize / a) := by
    intro a ha hle
    have hpos : 0 < inputSize / a := div_pos hle (by omega)
    have : a ≤ inputSize / (inputSize / a) := (le_div_iff_mul_le hpos).mpr (mul_div_le inputSize a)
    exact ⟨hpos, by omega⟩
  have hle : inputSize / workerNum ≤ inputSize := div_le_self _ _
  unfold calcSplitSeperator minSplitSize
  dsimp only
  split
  · obtain ⟨hpos, hsize⟩ := hsplit 512 (by decide) (by omega)
    exact ⟨hpos, normalizeSepCnt_pos hw hsize⟩
  · split
    · have hsize : ∀ a, 512 ≤ a → a ≤ 32768 * 4 → 0 < inputSize / a ∧
          0 < normalizeSepCnt inputSize (inputSize / a) (workerNum * 4) := fun a ha ha' =>
        have hs := hsplit a ha (by omega)
        ⟨hs.1, normalizeSepCnt_pos (by omega) hs.2⟩
      split <;> exact hsize _ (by decide) (by decide)
    · have hworker : ∀ m, 1 ≤ m → m ≤ 4 → 8 ≤ inputSize / (workerNum * m) := by
        intro m hm hm'
        rw [← Nat.div_div_eq_div_mul, Nat.le_div_iff_mul_le hm]
        omega
      split
      · exact ⟨by dsimp only; omega, normalizeSepCnt_pos (by omega) (hworker 4 (by decide) (by decide))⟩
      · exact ⟨by dsimp only; omega, normalizeSepCnt_pos (by omega) (hworker 2 (by decide) (by decide))⟩

/-! ## Splits -/

section Splits

variable {α : Type} {l : List α} {n size cnt : ℕ}

theorem flatMap_slices (l : List α) (size : ℕ) : ∀ cnt : ℕ,
    (range cnt).flatMap (fun k => slice l (k * size) (min ((k + 1) * size) l.length)) = l.take (cnt * size) := by
  intro cnt
  induction cnt with
  | zero => simp
  | succ cnt ih =>
    rw [range_succ, flatMap_append, flatMap_singleton, succ_mul, take_add]
    congr 1
    rw [slice, take_eq_take_iff, length_drop]
    omega

theorem length_slice {first last : ℕ} (h : last ≤ l.length) : (slice l first last).length = last - first := by
  rw [slice, length_take, length_drop]
  omega

theorem getElem?_slice {first last i : ℕ} (h : i < last - first) : (slice l first last)[i]? = l[first + i]? := by
  rw [slice, getElem?_take_of_lt h, getElem?_drop]

theorem slice_append_slice {first mid last : ℕ} (h : first ≤ mid) (h' : mid ≤ last) :
    slice l first mid ++ slice l mid last = slice l first last := by
  have hdrop : l.drop mid = (l.drop first).drop (mid - first) := by
    rw [drop_drop, Nat.add_sub_cancel' h]
  rw [slice, slice, hdrop, ← take_add]
  congr 1
  omega

/-- Pieces between the values of a monotone function. -/
theorem flatMap_pieces (l : List α) (cut : ℕ → ℕ) (hmono : ∀ j < n, cut j ≤ cut (j + 1)) :
    (range n).flatMap (fun j => slice l (cut j) (cut (j + 1))) = slice l (cut 0) (cut n) ∧ cut 0 ≤ cut n := by
  induction n with
  | zero => simp [slice]
  | succ n ih =>
    obtain ⟨heq, hle⟩ := ih fun j hj => hmono j (by omega)
    have hlast := hmono n (by omega)
    rw [range_succ, flatMap_append, heq, flatMap_singleton, slice_append_slice hle hlast]
    exact ⟨rfl, hle.trans hlast⟩

theorem slice_flatMap_range {f : ℕ → List α} (hk : n < cnt) (hlen : ∀ k < n, (f k).length = size) :
    slice ((range cnt).flatMap f) (n * size) (n * size + (f n).length) = f n := by
  have hsplit : range cnt = range n ++ n :: range' (n + 1) (cnt - (n + 1)) := by
    have hglue := range'_append_1 (s := 0) (m := n) (n := cnt - n)
    rw [Nat.zero_add, Nat.add_sub_cancel' hk.le] at hglue
    rw [range_eq_range', range_eq_range', ← hglue, show cnt - n = cnt - (n + 1) + 1 by omega, range'_succ]
  have hfront : ((range n).flatMap f).length = n * size := by
    rw [length_flatMap, map_congr_left fun k hk => hlen k (mem_range.mp hk)]
    simp
  rw [hsplit, flatMap_append, flatMap_cons, slice, ← hfront, drop_left, Nat.add_sub_cancel_left, take_left]

end Splits

section Runs

variable {α : Type} {less : α → α → Bool} {input : List α} {states : List SortSplitState}
  {seperatorCnt : ℕ} {state : SortSplitState} {i j : ℕ} {a b : α}

def SortSplitState.sep (state : SortSplitState) (j : ℕ) : ℕ := state.localSeperators.getD j 0

/-- A split is a sorted range of the input with its separators inside. -/
structure SortSplitState.Run (less : α → α → Bool) (input : List α) (seperatorCnt : ℕ) (state : SortSplitState) :
    Prop where
  first_le : state.first ≤ state.last
  last_le : state.last ≤ input.length
  sorted : Sorted less (slice input state.first state.last)
  seps : state.localSeperators.length = seperatorCnt
  inside : ∀ j < seperatorCnt, state.first ≤ state.sep j ∧ state.sep j < state.last
  mono : ∀ i j, i ≤ j → j < seperatorCnt → state.sep i ≤ state.sep j

theorem SortSplitState.Run.sep_eq (hr : state.Run less input seperatorCnt) (hj : j < seperatorCnt) :
    state.localSeperators[j]? = some (state.sep j) := by
  have : j < state.localSeperators.length := by rw [hr.seps]; exact hj
  simp [SortSplitState.sep, this]

theorem SortSplitState.Run.exists_sep (hr : state.Run less input seperatorCnt) (hj : j < seperatorCnt) :
    ∃ x, input[state.sep j]? = some x := by
  have := (hr.inside j hj).2
  have := hr.last_le
  exact ⟨_, getElem?_eq_getElem (by omega)⟩

section
variable (h : StrictWeak less) (hr : state.Run less input seperatorCnt)
include h hr

theorem SortSplitState.Run.le (hi : state.first ≤ i) (hij : i ≤ j) (hj : j < state.last) (ha : input[i]? = some a)
    (hb : input[j]? = some b) : Le less a b := by
  have hget : ∀ k, state.first ≤ k → k < state.last → (slice input state.first state.last)[k - state.first]? = input[k]? := by
    intro k hk hk'
    rw [getElem?_slice (by omega), Nat.add_sub_cancel' hk]
  obtain ⟨hi', rfl⟩ := List.getElem?_eq_some_iff.mp ((hget i hi (by omega)).trans ha)
  obtain ⟨hj', rfl⟩ := List.getElem?_eq_some_iff.mp ((hget j (by omega) hj).trans hb)
  exact hr.sorted.getElem_le h (by omega) hj'

end

/-! ## Separator values -/

/-- `val` is the median of the separators with number `j`. -/
structure IsMedian (less : α → α → Bool) (input : List α) (states : List SortSplitState) (j : ℕ) (val : α)
    (elems sorted : List α) : Prop where
  read : List.Forall₂ (fun state x => input[state.sep j]? = some x) states elems
  perm : sorted.Perm elems
  ordered : Sorted less sorted
  median : sorted[states.length / 2]? = some val

theorem globalSepVal_outside {lib : Library} (hsep : ∀ state ∈ states, state.localSeperators[j]? = some (state.sep j))
    (hs : state ∈ states) (hout : input.length ≤ state.sep j) : globalSepVal lib less input states j = none := by
  have hread : (states.map fun state => state.sep j).mapM (fun idx => input[idx]?.map (idx, ·)) = none := by
    refine mapM_eq_none (mem_map.mpr ⟨state, hs, rfl⟩) ?_
    rw [getElem?_eq_none hout]
    rfl
  rw [globalSepVal, mapM_eq_map hsep]
  simp [hread]

/-- The separator values, in order. -/
structure SepVals (less : α → α → Bool) (seperatorCnt : ℕ) (vals : List α) : Prop where
  length : vals.length = seperatorCnt
  le : ∀ {i j : ℕ} {a b : α}, i ≤ j → vals[i]? = some a → vals[j]? = some b → Le less a b

section
variable (h : StrictWeak less) (hr : ∀ state ∈ states, state.Run less input seperatorCnt)
include h hr

theorem globalSepVal_eq (lib : Library) (hne : states ≠ []) (hj : j < seperatorCnt) :
    ∃ val elems sorted, globalSepVal lib less input states j = some val ∧ IsMedian less input states j val elems sorted := by
  have hsame : states.mapM (fun state => state.localSeperators[j]?) = some (states.map fun state => state.sep j) :=
    mapM_eq_map fun state hs => (hr state hs).sep_eq hj
  obtain ⟨pairs, hpairs, hrel⟩ := exists_mapM (f := fun idx => input[idx]?.map (idx, ·))
    fun idx hidx => by
      obtain ⟨state, hs, rfl⟩ := mem_map.mp hidx
      obtain ⟨x, hx⟩ := (hr state hs).exists_sep hj
      exact ⟨_, by rw [hx]; rfl⟩
  have helems : List.Forall₂ (fun state x => input[state.sep j]? = some x) states (pairs.map Prod.snd) := by
    rw [forall₂_map_left_iff] at hrel
    rw [forall₂_map_right_iff]
    refine hrel.imp fun state pair hp => ?_
    obtain ⟨x, hx, rfl⟩ := map_eq_some_iff.mp hp
    exact hx
  have hcmp := h.comap (Prod.snd : ℕ × α → α)
  have hperm := lib.sort_perm pairs hcmp
  have hlen : (lib.sort (fun l r => less l.2 r.2) pairs).length = states.length := by
    rw [hperm.length_eq, ← length_map, helems.length_eq]
  have hpos : states.length / 2 < (lib.sort (fun l r => less l.2 r.2) pairs).length := by
    have := length_pos_of_ne_nil hne
    omega
  refine ⟨((lib.sort (fun l r => less l.2 r.2) pairs)[states.length / 2]).2, _, _, ?_, helems,
    hperm.map Prod.snd, ?_, ?_⟩
  · simp only [globalSepVal, hsame, hpairs, hlen, bind_eq_bind, bind_some, getElem?_eq_getElem hpos, map_some]
  · exact pairwise_map.mpr (lib.sort_sorted pairs hcmp)
  · rw [getElem?_map, getElem?_eq_getElem hpos]
    rfl

theorem IsMedian.le (hij : i ≤ j) (hj : j < seperatorCnt) {elems sorted elems' sorted' : List α} (ha : IsMedian less input states i a elems sorted)
    (hb : IsMedian less input states j b elems' sorted') : Le less a b := by
  have hrel : List.Forall₂ (Le less) elems elems' := by
    have hlen : elems.length = elems'.length := ha.read.length_eq.symm.trans hb.read.length_eq
    refine forall₂_iff_get.mpr ⟨hlen, fun k hk hk' => ?_⟩
    have hks : k < states.length := by rw [ha.read.length_eq]; exact hk
    have hrun := hr states[k] (getElem_mem hks)
    exact hrun.le h (hrun.inside i (by omega)).1 (hrun.mono i j hij hj) (hrun.inside j hj).2
      ((forall₂_iff_get.mp ha.read).2 k hks hk) ((forall₂_iff_get.mp hb.read).2 k hks hk')
  obtain ⟨hm, rfl⟩ := List.getElem?_eq_some_iff.mp ha.median
  obtain ⟨hm', rfl⟩ := List.getElem?_eq_some_iff.mp hb.median
  exact getElem_le_of_forall₂ h hrel ha.ordered hb.ordered ha.perm hb.perm hm hm'

theorem exists_sepVals (lib : Library) (hne : states ≠ []) : ∃ vals,
    (range seperatorCnt).mapM (globalSepVal lib less input states) = some vals ∧ SepVals less seperatorCnt vals := by
  obtain ⟨vals, hvals, hrel⟩ := exists_mapM
    fun j hj => by
      obtain ⟨val, _, _, hval, _⟩ := globalSepVal_eq h hr lib hne (mem_range.mp hj)
      exact ⟨val, hval⟩
  have hlen : vals.length = seperatorCnt := by rw [← hrel.length_eq, length_range]
  -- every value is the median of its position
  have hmedian : ∀ {j val}, vals[j]? = some val → j < seperatorCnt ∧
      ∃ elems sorted, IsMedian less input states j val elems sorted := by
    intro j val hval
    obtain ⟨hj, rfl⟩ := List.getElem?_eq_some_iff.mp hval
    have hjs : j < seperatorCnt := hlen ▸ hj
    obtain ⟨val', elems, sorted, hval', hm⟩ := globalSepVal_eq h hr lib hne hjs
    have hj' := (forall₂_iff_get.mp hrel).2 j (by rw [length_range]; exact hjs) hj
    simp only [get_eq_getElem, getElem_range] at hj'
    rw [hval', some.injEq] at hj'
    exact ⟨hjs, elems, sorted, hj' ▸ hm⟩
  refine ⟨vals, hvals, hlen, fun hij ha hb => ?_⟩
  obtain ⟨-, _, _, ha⟩ := hmedian ha
  obtain ⟨hj, _, _, hb⟩ := hmedian hb
  exact ha.le h hr hij hj hb

end

/-! ## Pieces -/

variable {vals : List α}

theorem pieceLast_eq (vals : List α) (state : SortSplitState) (j : ℕ) :
    pieceLast less input vals state j = pieceFirst less input vals state (j + 1) := by
  simp [pieceLast, pieceFirst]

theorem SepVals.pieceFirst_end (hv : SepVals less seperatorCnt vals) :
    pieceFirst less input vals state (seperatorCnt + 1) = state.last := by
  have : vals[seperatorCnt]? = none := getElem?_eq_none (by rw [hv.length])
  simp [pieceFirst, this]

/-- Piece `j` of a split. -/
def piece (less : α → α → Bool) (input vals : List α) (j : ℕ) (state : SortSplitState) : List α :=
  slice input (pieceFirst less input vals state j) (pieceFirst less input vals state (j + 1))

theorem mem_slice {first last : ℕ} {x : α} (hx : x ∈ slice input first last) :
    ∃ i, first ≤ i ∧ i < last ∧ input[i]? = some x := by
  obtain ⟨i, hi⟩ := mem_iff_getElem?.mp hx
  have hlt : i < last - first := by
    obtain ⟨hlen, -⟩ := List.getElem?_eq_some_iff.mp hi
    rw [slice, length_take] at hlen
    omega
  rw [getElem?_slice hlt] at hi
  exact ⟨first + i, by omega, by omega, hi⟩

section
variable (h : StrictWeak less) (hr : state.Run less input seperatorCnt)
include h hr

theorem SortSplitState.Run.separates (val : α) :
    Search.Separates (fun i => input[i]?.any (less · val)) state.first (state.last - state.first)
      (globalSeperator less input val state) := by
  refine Search.partitionPoint_spec fun i j hi hij hj hp => ?_
  obtain ⟨b, hb, hlt⟩ := (any_eq_true _ _).mp hp
  have hlast := hr.last_le
  obtain ⟨a, ha⟩ : ∃ a, input[i]? = some a := ⟨_, getElem?_eq_getElem (by omega)⟩
  rw [ha]
  exact h.lt_of_le_of_lt (hr.le h hi hij (by omega) ha hb) hlt

theorem SortSplitState.Run.seperator_le (hab : Le less a b) :
    globalSeperator less input a state ≤ globalSeperator less input b state := by
  have hsa := hr.separates h a
  have hsb := hr.separates h b
  by_contra hlt
  have hle := hsa.le
  have hbelow := hsa.below _ hsb.ge (Nat.lt_of_not_le hlt)
  have habove := hsb.above _ (le_refl _) (by omega)
  obtain ⟨x, hx, hxa⟩ := (any_eq_true _ _).mp hbelow
  rw [hx, any_some, h.lt_of_lt_of_le hxa hab] at habove
  cases habove

theorem SortSplitState.Run.seperator_mem (val : α) :
    state.first ≤ globalSeperator less input val state ∧ globalSeperator less input val state ≤ state.last := by
  have hs := hr.separates h val
  have := hs.le
  have := hr.first_le
  exact ⟨hs.ge, by omega⟩

theorem SortSplitState.Run.pieceFirst_mem (vals : List α) (j : ℕ) :
    state.first ≤ pieceFirst less input vals state j ∧ pieceFirst less input vals state j ≤ state.last := by
  unfold pieceFirst
  split
  · exact ⟨le_refl _, hr.first_le⟩
  · split
    · exact hr.seperator_mem h _
    · exact ⟨hr.first_le, le_refl _⟩

theorem SepVals.pieceFirst_le (hv : SepVals less seperatorCnt vals) (j : ℕ) :
    pieceFirst less input vals state j ≤ pieceFirst less input vals state (j + 1) := by
  cases j with
  | zero => exact (hr.pieceFirst_mem h vals 1).1
  | succ j =>
    cases hb : vals[j + 1]? with
    | none =>
      have hend : pieceFirst less input vals state (j + 1 + 1) = state.last := by simp [pieceFirst, hb]
      rw [hend]
      exact (hr.pieceFirst_mem h vals (j + 1)).2
    | some b =>
      obtain ⟨hlt, -⟩ := List.getElem?_eq_some_iff.mp hb
      obtain ⟨a, ha⟩ : ∃ a, vals[j]? = some a := ⟨_, getElem?_eq_getElem (by omega)⟩
      simpa [pieceFirst, ha, hb] using hr.seperator_le h (hv.le (le_succ j) ha hb)

theorem SortSplitState.Run.lt_of_mem_piece {x val : α} (hval : vals[j]? = some val) (hx : x ∈ piece less input vals j state) :
    less x val := by
  obtain ⟨i, hi, hi', hxi⟩ := mem_slice hx
  have hfirst := (hr.pieceFirst_mem h vals j).1
  have hnext : pieceFirst less input vals state (j + 1) = globalSeperator less input val state := by
    simp [pieceFirst, hval]
  have := (hr.separates h val).below i (by omega) (by omega)
  rw [hxi] at this
  simpa using this

theorem SortSplitState.Run.le_of_mem_piece {x val : α} (hval : vals[j]? = some val)
    (hx : x ∈ piece less input vals (j + 1) state) : Le less val x := by
  obtain ⟨i, hi, hi', hxi⟩ := mem_slice hx
  have hlast := (hr.pieceFirst_mem h vals (j + 1 + 1)).2
  have hfirst : pieceFirst less input vals state (j + 1) = globalSeperator less input val state := by
    simp [pieceFirst, hval]
  have := (hr.separates h val).above i (by omega) (by omega)
  rw [hxi] at this
  simpa [Le] using this

/-- What is in an earlier piece of one split is not after what is in a later
piece of another. -/
theorem SepVals.piece_le (hv : SepVals less seperatorCnt vals) {state' : SortSplitState}
    (hr' : state'.Run less input seperatorCnt) (hij : i < j) (hj : j ≤ seperatorCnt)
    {x y : α} (hx : x ∈ piece less input vals i state) (hy : y ∈ piece less input vals j state') : Le less x y := by
  obtain ⟨j, rfl⟩ : ∃ j', j = j' + 1 := ⟨j - 1, by omega⟩
  have hlen := hv.length
  obtain ⟨u, hu⟩ : ∃ u, vals[i]? = some u := ⟨_, getElem?_eq_getElem (by omega)⟩
  obtain ⟨v, hvj⟩ : ∃ v, vals[j]? = some v := ⟨_, getElem?_eq_getElem (by omega)⟩
  have hxu := hr.lt_of_mem_piece h hu hx
  have hvy := hr'.le_of_mem_piece h hvj hy
  exact h.le_trans (h.le_of_lt hxu) (h.le_trans (hv.le (by omega) hu hvj) hvy)

theorem SepVals.piece_sorted (hv : SepVals less seperatorCnt vals) (j : ℕ) : Sorted less (piece less input vals j state) := by
  have hj := hr.pieceFirst_mem h vals j
  have hj' := hr.pieceFirst_mem h vals (j + 1)
  have hle := SepVals.pieceFirst_le h hr hv j
  have hsub : (piece less input vals j state).Sublist (slice input state.first state.last) := by
    rw [← slice_append_slice hj.1 (hle.trans hj'.2), ← slice_append_slice hle hj'.2]
    exact (sublist_append_left _ _).trans (sublist_append_right _ _)
  exact hr.sorted.sublist hsub

end

/-! ## The output -/

section
variable (lib : Library) (h : StrictWeak less) (hv : SepVals less seperatorCnt vals)
    (hr : ∀ state ∈ states, state.Run less input seperatorCnt)
include lib h hv hr

theorem mergePieces_spec (j : ℕ) :
    (mergePieces lib less input vals states j).Perm (states.flatMap (piece less input vals j)) ∧
      Sorted less (mergePieces lib less input vals states j) := by
  refine mergeAll_spec h (lib.top_least h) fun l hl => ?_
  obtain ⟨state, hs, rfl⟩ := mem_map.mp hl
  exact SepVals.piece_sorted h (hr state hs) hv j

theorem outputRange_eq (j : ℕ) :
    outputRange less input vals states j = ((range j).flatMap (mergePieces lib less input vals states)).length := by
  rw [outputRange, length_flatMap]
  congr 1
  refine map_congr_left fun j _ => ?_
  rw [(mergePieces_spec lib h hv hr j).1.length_eq, length_flatMap]
  congr 1
  refine map_congr_left fun state hs => ?_
  rw [piece, length_slice (((hr state hs).pieceFirst_mem h vals (j + 1)).2.trans (hr state hs).last_le), pieceLast_eq]

/-- All pieces of all splits are the input. -/
theorem pieces_perm (htile : states.flatMap (fun state => slice input state.first state.last) = input) :
    ((range (seperatorCnt + 1)).flatMap (mergePieces lib less input vals states)).Perm input := by
  have hmerge : ((range (seperatorCnt + 1)).flatMap (mergePieces lib less input vals states)).Perm
      ((range (seperatorCnt + 1)).flatMap fun j => states.flatMap (piece less input vals j)) :=
    List.Perm.flatMap_left _ fun j _ => (mergePieces_spec lib h hv hr j).1
  have hsplit : states.flatMap (fun state => (range (seperatorCnt + 1)).flatMap fun j => piece less input vals j state) =
      input := by
    conv_rhs => rw [← htile]
    refine flatMap_congr fun state hs => ?_
    have hcut := (flatMap_pieces input (pieceFirst less input vals state) (n := seperatorCnt + 1)
      fun j _ => SepVals.pieceFirst_le h (hr state hs) hv j).1
    rw [hv.pieceFirst_end] at hcut
    exact hcut
  have hswap : ((range (seperatorCnt + 1)).flatMap fun j => states.flatMap (piece less input vals j)).Perm
      (states.flatMap fun state => (range (seperatorCnt + 1)).flatMap fun j => piece less input vals j state) := by
    simpa using Multiset.bind_bind (↑(range (seperatorCnt + 1))) (↑states)
        (f := fun j state => (↑(piece less input vals j state) : Multiset α))
  exact hmerge.trans (hswap.trans (List.Perm.of_eq hsplit))

theorem pieces_sorted : Sorted less ((range (seperatorCnt + 1)).flatMap (mergePieces lib less input vals states)) := by
  refine pairwise_flatMap.mpr ⟨fun j _ => (mergePieces_spec lib h hv hr j).2, ?_⟩
  refine pairwise_lt_range.imp_of_mem fun {i j} _ hj hij x hx y hy => ?_
  rw [(mergePieces_spec lib h hv hr i).1.mem_iff, mem_flatMap] at hx
  rw [(mergePieces_spec lib h hv hr j).1.mem_iff, mem_flatMap] at hy
  obtain ⟨state, hs, hx⟩ := hx
  obtain ⟨state', hs', hy⟩ := hy
  exact SepVals.piece_le h (hr state hs) hv (hr state' hs') hij (by have := mem_range.mp hj; omega) hx hy

end

end Runs

section Output

variable {α : Type} {segment : ℕ → List α} {pos : ℕ → ℕ}

/-- Segments written one behind the other. -/
theorem foldlM_write (hpos : ∀ j, pos j = ((range j).flatMap segment).length) (size : ℕ) : ∀ n : ℕ,
    ((range n).flatMap segment).length ≤ size →
      (range n).foldlM (fun out j => write out (pos j) (segment j)) (replicate size none) =
        some (((range n).flatMap segment).map some ++ replicate (size - ((range n).flatMap segment).length) none) := by
  intro n
  induction n with
  | zero => simp
  | succ n ih =>
    intro hle
    rw [range_succ, flatMap_append, flatMap_singleton, length_append] at hle ⊢
    have hp := hpos n
    rw [foldlM_append, ih (by omega)]
    generalize (range n).flatMap segment = front at hle hp
    have hwrite : write (front.map some ++ replicate (size - front.length) none) (pos n) (segment n) =
        some ((front ++ segment n).map some ++ replicate (size - (front.length + (segment n).length)) none) := by
      have hfits : front.length + (segment n).length ≤ (front.map some ++ replicate (size - front.length) none).length := by
        rw [length_append, length_map, length_replicate]
        omega
      have hdrop : (front.map some ++ replicate (size - front.length) none).drop (front.length + (segment n).length) =
          replicate (size - (front.length + (segment n).length)) none := by
        rw [drop_append, drop_eq_nil_of_le (by simp), drop_replicate, length_map, nil_append]
        congr 1
        omega
      rw [hp, write, if_pos hfits]
      congr 2
      simp
    simpa using hwrite

theorem mapM_id_map_some (l : List α) : (l.map some).mapM id = some l := by
  induction l with
  | nil => rfl
  | cons x l ih => rw [map_cons, mapM_cons, ih]; rfl

end Output

section Whole

variable {α : Type} {less : α → α → Bool} {l : List α} {cnt seperatorCnt k : ℕ}

def stateAt (inputSize splitCnt seperatorCnt k : ℕ) : SortSplitState :=
  let first := k * splitSize inputSize splitCnt
  let last := min ((k + 1) * splitSize inputSize splitCnt) inputSize
  ⟨first, last, (range seperatorCnt).map fun i =>
    first + (last - first) / seperatorCnt / 2 + i * (last - first) / seperatorCnt⟩

theorem mapM_splitState {inputSize : ℕ} (h : (cnt - 1) * splitSize inputSize cnt ≤ inputSize) :
    (range cnt).mapM (splitState inputSize cnt seperatorCnt) =
      some ((range cnt).map (stateAt inputSize cnt seperatorCnt)) := by
  refine mapM_eq_map fun k hk => ?_
  have hk := mem_range.mp hk
  have hlast : k * splitSize inputSize cnt ≤ (cnt - 1) * splitSize inputSize cnt := mul_le_mul_right _ (by omega)
  have hmul : k * splitSize inputSize cnt ≤ (k + 1) * splitSize inputSize cnt := mul_le_mul_right _ (le_succ k)
  rw [splitState, if_neg (by omega)]
  rfl

theorem le_mul_splitSize (inputSize : ℕ) (hcnt : 0 < cnt) : inputSize ≤ cnt * splitSize inputSize cnt := by
  have hmod := div_add_mod (inputSize + cnt - 1) cnt
  have hlt := mod_lt (inputSize + cnt - 1) hcnt
  unfold splitSize
  omega

theorem sep_lt {range sepCnt i : ℕ} (hr : 0 < range) (hi : i < sepCnt) :
    range / sepCnt / 2 + i * range / sepCnt < range := by
  have hmul : sepCnt * (i * range / sepCnt) ≤ i * range := mul_div_le _ _
  have hhalf : sepCnt * (range / sepCnt / 2) * 2 ≤ range := by
    have h₁ : range / sepCnt / 2 * 2 ≤ range / sepCnt := div_mul_le_self _ _
    have h₂ : sepCnt * (range / sepCnt) ≤ range := mul_div_le _ _
    calc sepCnt * (range / sepCnt / 2) * 2 = sepCnt * (range / sepCnt / 2 * 2) := mul_assoc _ _ _
      _ ≤ sepCnt * (range / sepCnt) := mul_le_mul_left _ h₁
      _ ≤ range := h₂
  have hlast : (i + 1) * range ≤ sepCnt * range := mul_le_mul_right _ hi
  rw [succ_mul] at hlast
  refine Nat.lt_of_mul_lt_mul_left (a := sepCnt) ?_
  rw [Nat.mul_add]
  omega

/-- Split `k`, sorted. -/
def runAt (lib : Library) (less : α → α → Bool) (l : List α) (cnt k : ℕ) : List α :=
  lib.sort less (slice l (k * splitSize l.length cnt) (min ((k + 1) * splitSize l.length cnt) l.length))

/-- The sorted splits. -/
def runs (lib : Library) (less : α → α → Bool) (l : List α) (cnt : ℕ) : List α := (range cnt).flatMap (runAt lib less l cnt)

theorem sortSplits_eq (lib : Library) (l : List α) (cnt seperatorCnt : ℕ) :
    sortSplits lib less l ((range cnt).map (stateAt l.length cnt seperatorCnt)) = runs lib less l cnt := by
  rw [sortSplits, flatMap_map]
  rfl

section
variable (lib : Library) (h : StrictWeak less)
include lib h

theorem runs_perm (l : List α) (hcnt : 0 < cnt) : (runs lib less l cnt).Perm l := by
  refine (List.Perm.flatMap_left _ fun k _ => lib.sort_perm _ h).trans (List.Perm.of_eq ?_)
  rw [flatMap_slices, take_of_length_le (le_mul_splitSize l.length hcnt)]

section

variable (hlast : (cnt - 1) * splitSize l.length cnt < l.length)
include hlast

theorem slice_runs (hk : k < cnt) :
    slice (runs lib less l cnt) (k * splitSize l.length cnt) (min ((k + 1) * splitSize l.length cnt) l.length) =
      runAt lib less l cnt k := by
  have hlen : ∀ i < cnt, (runAt lib less l cnt i).length =
      min ((i + 1) * splitSize l.length cnt) l.length - i * splitSize l.length cnt := fun i _ => by
    rw [runAt, (lib.sort_perm _ h).length_eq, length_slice (min_le_right _ _)]
  have hfull : ∀ i < k, (runAt lib less l cnt i).length = splitSize l.length cnt := fun i hi => by
    have hle : (i + 1) * splitSize l.length cnt ≤ (cnt - 1) * splitSize l.length cnt := mul_le_mul_right _ (by omega)
    rw [hlen i (by omega), Nat.min_eq_left (by omega), Nat.succ_mul, Nat.add_sub_cancel_left]
  have hslice := slice_flatMap_range hk hfull
  have hfirst : k * splitSize l.length cnt ≤ (cnt - 1) * splitSize l.length cnt := mul_le_mul_right _ (by omega)
  rw [hlen k hk, Nat.add_sub_cancel' (by rw [Nat.succ_mul]; omega)] at hslice
  exact hslice

theorem tiles_runs (seperatorCnt : ℕ) : ((range cnt).map (stateAt l.length cnt seperatorCnt)).flatMap
      (fun state => slice (runs lib less l cnt) state.first state.last) = runs lib less l cnt := by
  rw [flatMap_map]
  exact flatMap_congr fun k hk => slice_runs lib h hlast (mem_range.mp hk)

theorem stateAt_run (hk : k < cnt) :
    (stateAt l.length cnt seperatorCnt k).Run less (runs lib less l cnt) seperatorCnt := by
  have hfirst : k * splitSize l.length cnt ≤ (cnt - 1) * splitSize l.length cnt := mul_le_mul_right _ (by omega)
  have hslice := slice_runs lib h hlast hk
  obtain ⟨first, hf⟩ : ∃ first, first = k * splitSize l.length cnt := ⟨_, rfl⟩
  obtain ⟨last, hl⟩ : ∃ last, last = min ((k + 1) * splitSize l.length cnt) l.length := ⟨_, rfl⟩
  have hlt : first < last := by
    have hsize : 0 < splitSize l.length cnt := by
      have := le_mul_splitSize l.length (show 0 < cnt by omega)
      by_contra hzero
      obtain hzero : splitSize l.length cnt = 0 := by omega
      rw [hzero] at this
      omega
    rw [succ_mul] at hl
    omega
  have hsep : ∀ j < seperatorCnt, (stateAt l.length cnt seperatorCnt k).sep j =
      first + ((last - first) / seperatorCnt / 2 + j * (last - first) / seperatorCnt) := by
    intro j hj
    simp [SortSplitState.sep, stateAt, hj, add_assoc, hf, hl]
  rw [← hf, ← hl] at hslice
  have hfirst : (stateAt l.length cnt seperatorCnt k).first = first := hf.symm
  have hlast : (stateAt l.length cnt seperatorCnt k).last = last := hl.symm
  refine ⟨?_, ?_, ?_, ?_, fun j hj => ?_, fun i j hij hj => ?_⟩
  · rw [hfirst, hlast]
    exact hlt.le
  · rw [(runs_perm lib h l (by omega)).length_eq, hlast, hl]
    exact min_le_right _ _
  · rw [hfirst, hlast, hslice]
    exact lib.sort_sorted _ h
  · simp [stateAt]
  · rw [hsep j hj, hfirst, hlast]
    exact ⟨Nat.le_add_right _ _, Nat.add_lt_of_lt_sub' (sep_lt (Nat.sub_pos_of_lt hlt) hj)⟩
  · rw [hsep i (by omega), hsep j hj]
    refine Nat.add_le_add_left (Nat.add_le_add_left (Nat.div_le_div_right (Nat.mul_le_mul_right _ hij)) _) _

theorem sampleSort_of_inside (hcnt : 0 < cnt) :
    ∃ out, sampleSort lib less cnt seperatorCnt l = some out ∧ out.Perm l ∧ Sorted less out := by
  have hruns : ∀ state ∈ (range cnt).map (stateAt l.length cnt seperatorCnt),
      state.Run less (runs lib less l cnt) seperatorCnt := by
    intro state hs
    obtain ⟨k, hk, rfl⟩ := mem_map.mp hs
    exact stateAt_run lib h hlast (mem_range.mp hk)
  have hinput : sortSplits lib less l _ = _ := sortSplits_eq lib l cnt seperatorCnt
  have htile := tiles_runs lib h hlast seperatorCnt
  have hperm := runs_perm lib h l hcnt
  have hne : (range cnt).map (stateAt l.length cnt seperatorCnt) ≠ [] := by
    rw [ne_eq, map_eq_nil_iff, range_eq_nil]
    omega
  rw [sampleSort, mapM_splitState hlast.le]
  obtain ⟨vals, hvals, hv⟩ := exists_sepVals h hruns lib hne
  have hout := pieces_perm lib h hv hruns htile
  have hlen := hout.length_eq.trans hperm.length_eq
  have hwrite := foldlM_write (fun j => outputRange_eq lib h hv hruns j) l.length (seperatorCnt + 1) hlen.le
  rw [hlen, Nat.sub_self, replicate_zero, append_nil] at hwrite
  refine ⟨_, ?_, hout.trans hperm, pieces_sorted lib h hv hruns⟩
  simp only [hinput, hvals, hwrite, bind_eq_bind, bind_some, mapM_id_map_some]

end

/-- A last split that begins at or behind the end of the input: its range is
not one, or its separators are outside. -/
theorem sampleSort_of_outside (hcnt : 0 < cnt) (hsep : 0 < seperatorCnt)
    (hlast : l.length ≤ (cnt - 1) * splitSize l.length cnt) : sampleSort lib less cnt seperatorCnt l = none := by
  have hmem : cnt - 1 ∈ range cnt := mem_range.mpr (by omega)
  rcases lt_or_eq_of_le hlast with hlt | heq
  · have hnone : splitState l.length cnt seperatorCnt (cnt - 1) = none := by
      rw [splitState, if_pos]
      omega
    rw [sampleSort, mapM_eq_none hmem hnone]
    rfl
  · have hvals : globalSepVal lib less (runs lib less l cnt)
        ((range cnt).map (stateAt l.length cnt seperatorCnt)) 0 = none := by
      have hs : stateAt l.length cnt seperatorCnt (cnt - 1) ∈ (range cnt).map (stateAt l.length cnt seperatorCnt) :=
        mem_map.mpr ⟨cnt - 1, hmem, rfl⟩
      refine globalSepVal_outside (fun state hs => ?_) hs ?_
      · obtain ⟨k, -, rfl⟩ := mem_map.mp hs
        simp [stateAt, SortSplitState.sep, hsep]
      · rw [(runs_perm lib h l hcnt).length_eq]
        simp [stateAt, SortSplitState.sep, hsep, ← heq]
    rw [sampleSort, mapM_splitState heq.ge]
    simp only [bind_eq_bind, bind_some, sortSplits_eq]
    rw [mapM_eq_none (mem_range.mpr hsep) hvals]
    rfl

end

variable {workerNum : ℕ} {values : List (List α)}

/-- The last split begins before the end of the input. -/
def LastSplitInside (inputSize workerNum : ℕ) : Prop :=
  let splitCnt := (calcSplitSeperator inputSize workerNum).1
  (splitCnt - 1) * splitSize inputSize splitCnt < inputSize

/-- **Above the parallel threshold the sort returns a sorted rearrangement of
its input exactly if the last split begins before the end of the input.** -/
theorem parallelSort_sorts_iff (lib : Library) (less : α → α → Bool) (workerNum : ℕ) (values : List (List α))
    (h : StrictWeak less) (hn : canParallelSort values.flatten.length) (hw : 1 ≤ workerNum) :
    (∃ out, parallelSort lib less workerNum values = some out ∧ out.Perm values.flatten ∧ Sorted less out) ↔
      LastSplitInside values.flatten.length workerNum := by
  obtain ⟨hcnt, hsep⟩ := calcSplitSeperator_pos hn hw
  have hsort : parallelSort lib less workerNum values =
      sampleSort lib less (calcSplitSeperator values.flatten.length workerNum).1
        (calcSplitSeperator values.flatten.length workerNum).2 values.flatten := if_neg (by omega)
  rw [hsort]
  constructor
  · rintro ⟨out, hout, -⟩
    by_contra hlast
    rw [sampleSort_of_outside lib h hcnt hsep (Nat.le_of_not_lt hlast)] at hout
    cases hout
  · exact fun hlast => sampleSort_of_inside lib h hlast hcnt

end Whole

/-! ## One standard library -/

/-- The first position of a least element. -/
def leastAt {β : Type} (less : β → β → Bool) : List (β × ℕ) → ℕ
  | [] => 0
  | x :: xs => if xs[leastAt less xs]?.any (fun y => less y.1 x.1) then leastAt less xs + 1 else 0

theorem findsLeast_leastAt {β : Type} {less : β → β → Bool} (h : StrictWeak less) : FindsLeast less (leastAt less) := by
  intro heap
  induction heap with
  | nil => exact fun hne => absurd rfl hne
  | cons x xs ih =>
    intro _
    by_cases hxs : xs = []
    · subst hxs
      exact ⟨x, rfl, fun y hy => by rw [mem_singleton.mp hy]; exact h.le_refl _⟩
    · obtain ⟨y, hy, hleast⟩ := ih hxs
      rw [leastAt, hy]
      split
      · next hlt =>
        exact ⟨y, by simpa using hy, forall_mem_cons.mpr ⟨h.le_of_lt hlt, hleast⟩⟩
      · next hge =>
        refine ⟨x, rfl, forall_mem_cons.mpr ⟨h.le_refl _, fun z hz => ?_⟩⟩
        exact h.le_trans (by simpa [Le] using hge) (hleast z hz)

def Library.mergeSort : Library where
  sort := fun less l => l.mergeSort fun a b => !less b a
  sort_perm := fun l _ => mergeSort_perm l _
  sort_sorted := fun {β less} l h => by
    have hsorted := @List.pairwise_mergeSort β (fun a b => !less b a) (fun a b c hab hbc => ?_) (fun a b => ?_) l
    · exact hsorted.imp fun hab => by simpa [Le] using hab
    · have := h.le_trans (a := a) (b := b) (c := c) (by simpa [Le] using hab) (by simpa [Le] using hbc)
      simpa [Le] using this
    · cases hba : less b a with
      | false => rfl
      | true => simpa [Le] using h.le_of_lt hba
  top := leastAt
  top_least := findsLeast_leastAt

theorem strictWeak_lt : StrictWeak fun a b : ℕ => decide (a < b) :=
  ⟨by simp, fun a b c => by simp only [decide_eq_true_eq]; omega, fun a b c => by simp only [decide_eq_true_eq]; omega⟩

/-- Two splits, four workers. -/
theorem parallelSort_sorts_two_splits :
    ∃ out, parallelSort .mergeSort (fun a b : ℕ => decide (a < b)) 4 [List.range 600, List.range 500] = some out ∧
      out.Perm (List.range 600 ++ List.range 500) ∧ Sorted (fun a b : ℕ => decide (a < b)) out := by
  have hlen : [range 600, range 500].flatten.length = 1100 := by simp
  have hsorts := (parallelSort_sorts_iff .mergeSort _ 4 [range 600, range 500] strictWeak_lt
    (by rw [hlen]; decide) (by decide)).mpr (by rw [hlen]; show _ < _; decide)
  simpa using hsorts

/-- The last of the 515 splits of 263681 elements begins at 263682. -/
theorem parallelSort_last_split_outside :
    parallelSort .mergeSort (fun a b : ℕ => decide (a < b)) 129 [List.replicate 263681 0] = none := by
  have hlen : [replicate 263681 0].flatten.length = 263681 := by
    rw [flatten_cons, flatten_nil, append_nil, length_replicate]
  rw [parallelSort, hlen]
  exact sampleSort_of_outside .mergeSort strictWeak_lt (by decide) (by decide) (by rw [hlen]; decide)

end GengoDB.Sorting
