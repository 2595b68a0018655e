/-
The segment tree of a window (`runtime/SegmentTreeView.cpp`). States are
combined by `*`. Each node has its state in an array of the same length, so one
counter stands for both arrays.
-/
import Mathlib.Algebra.BigOperators.Group.List.Basic
import Mathlib.Algebra.Group.WithOne.Defs
import Mathlib.Data.List.Intervals

namespace GengoDB.SegmentTree

open List Option

variable {σ : Type} [Semigroup σ]

/-- A leaf has one position, its `leftMin` and `rightMax`. -/
inductive TreeNode (σ : Type)
  | leaf (pos : ℕ) (state : σ)
  | inner (leftMin rightMax : ℕ) (left right : TreeNode σ) (state : σ)

def TreeNode.state : TreeNode σ → σ
  | leaf _ state | inner _ _ _ _ state => state

/-- `allocate` and `allocateState`; `none` is a failed assertion. -/
def allocate (numEntries cntr : ℕ) : Option ℕ := if cntr < numEntries then some (cntr + 1) else none

/-- `init` are the states `createInitialStateFn` makes of the entries. -/
def buildRecursively (init : ℕ → σ) (numEntries first last : ℕ) (h : first ≤ last) (cntr : ℕ) :
    Option (TreeNode σ × ℕ) :=
  if heq : first = last then (allocate numEntries cntr).map (.leaf first (init first), ·)
  else
    let mid := first + (last - first) / 2
    (buildRecursively init numEntries first mid (by omega) cntr).bind fun left =>
      (buildRecursively init numEntries (mid + 1) last (by omega) left.2).bind fun right =>
        (allocate numEntries right.2).map (.inner first last left.1 right.1 (left.1.state * right.1.state), ·)
termination_by last - first

/-- The root, and how many nodes are used. -/
def build (init : ℕ → σ) (numElements : ℕ) : Option (Option (TreeNode σ) × ℕ) :=
  if numElements = 0 then some (none, 0)
  else (buildRecursively init (numElements * 2 - 1) 0 (numElements - 1) (Nat.zero_le _) 0).map fun r => (some r.1, r.2)

/-- The result is `1` while `first` is set; the first state is copied. -/
def lookupRecursively (lo hi : ℕ) : TreeNode σ → WithOne σ → WithOne σ
  -- both tests of a leaf are the same
  | .leaf pos state, result => if lo ≤ pos ∧ pos ≤ hi then result * state else result
  | .inner leftMin rightMax left right state, result =>
    if lo ≤ leftMin ∧ rightMax ≤ hi then result * state
    else if lo ≤ rightMax ∧ leftMin ≤ hi then lookupRecursively lo hi right (lookupRecursively lo hi left result)
    else result

def lookup (root : Option (TreeNode σ)) (lo hi : ℕ) : Except String (WithOne σ) :=
  if hi < lo then .error "from must be <= to"
  else match root with
    | none => .error "can not perform lookup on empty segment tree"
    | some root => .ok (lookupRecursively lo hi root 1)

variable {init : ℕ → σ}

/-- What a tree over the positions `is` knows: their combination, and that of
those inside any range. -/
structure TreeNode.Over (init : ℕ → σ) (t : TreeNode σ) (is : List ℕ) : Prop where
  state_eq : (is.map fun i => (init i : WithOne σ)).prod = t.state
  lookup_eq : ∀ lo hi result, lookupRecursively lo hi t result =
    result * ((is.filter fun i => lo ≤ i ∧ i ≤ hi).map fun i => (init i : WithOne σ)).prod

theorem TreeNode.Over.inner {left right : TreeNode σ} {first mid last : ℕ} (hfirst : first ≤ mid) (hlast : mid < last)
    (hl : left.Over init (Ico first (mid + 1))) (hr : right.Over init (Ico (mid + 1) (last + 1))) :
    (inner first last left right (left.state * right.state)).Over init (Ico first (last + 1)) := by
  have hsplit := Ico.append_consecutive (Nat.le_succ_of_le hfirst) (Nat.le_succ_of_le hlast)
  have hstate : ((Ico first (last + 1)).map fun i => (init i : WithOne σ)).prod = (left.state * right.state : σ) := by
    rw [← hsplit, map_append, prod_append, hl.state_eq, hr.state_eq, WithOne.coe_mul]
  refine ⟨hstate, fun lo hi result => ?_⟩
  rw [lookupRecursively]
  split
  · rw [filter_eq_self.2 fun i hi => ?_, hstate]
    rw [Ico.mem] at hi
    simp only [decide_eq_true_eq]
    omega
  · split
    · rw [hl.lookup_eq, hr.lookup_eq, ← hsplit, filter_append, map_append, prod_append, mul_assoc]
    · rw [filter_eq_nil_iff.2 fun i hi => ?_, map_nil, prod_nil, mul_one]
      rw [Ico.mem] at hi
      simp only [decide_eq_true_eq]
      omega

theorem buildRecursively_eq {numEntries first last cntr : ℕ} (h : first ≤ last)
    (hroom : cntr + 2 * (last - first) < numEntries) :
    ∃ t, buildRecursively init numEntries first last h cntr = some (t, cntr + 2 * (last - first) + 1) ∧
      t.Over init (Ico first (last + 1)) := by
  fun_induction buildRecursively init numEntries first last h cntr with
  | case1 pos cntr h =>
    refine ⟨.leaf pos (init pos), ?_, ?_, fun lo hi result => ?_⟩
    · simp [allocate, show cntr < numEntries by omega]
    · simp [TreeNode.state]
    · rw [lookupRecursively]
      split <;> simp_all
  | case2 first last h cntr hne mid ihl ihr =>
    obtain ⟨left, hleft, hl⟩ := ihl (by omega)
    obtain ⟨right, hright, hr⟩ := ihr (left, cntr + 2 * (mid - first) + 1) (by dsimp only; omega)
    refine ⟨_, ?_, .inner (by omega) (by omega) hl hr⟩
    rw [hleft, bind_some, hright, bind_some, allocate, if_pos (by dsimp only; omega)]
    simp only [map_some, some.injEq, Prod.mk.injEq, true_and]
    omega

/-- **Every lookup** gives the combination of the states in its range, from left
to right, and all nodes are used. -/
theorem lookup_range (init : ℕ → σ) (n : ℕ) : ∃ root, build init (n + 1) = some (root, 2 * (n + 1) - 1) ∧
    ∀ lo hi, lo ≤ hi → hi < n + 1 → lookup root lo hi =
      .ok (((range (n + 1)).filter fun i => lo ≤ i ∧ i ≤ hi).map fun i => (init i : WithOne σ)).prod := by
  obtain ⟨root, hroot, hover⟩ : ∃ t, buildRecursively init ((n + 1) * 2 - 1) 0 n (Nat.zero_le n) 0 =
      some (t, 0 + 2 * (n - 0) + 1) ∧ t.Over init (Ico 0 (n + 1)) := buildRecursively_eq _ (by omega)
  refine ⟨some root, ?_, fun lo hi hle _ => ?_⟩
  · simp only [build, n.succ_ne_zero, ↓reduceIte, Nat.add_sub_cancel, hroot, map_some, some.injEq, Prod.mk.injEq,
      true_and]
    omega
  · rw [lookup, if_neg (by omega), ← Ico.zero_bot, ← one_mul (List.prod _)]
    exact congrArg _ (hover.lookup_eq lo hi 1)

end GengoDB.SegmentTree
