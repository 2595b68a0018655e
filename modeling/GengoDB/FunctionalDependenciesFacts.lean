/-
What `getFDs` reports for a plan holds, if rows are joined by equal keys
(`getFDs_sound`), and then an aggregation has the same rows if its keys are
reduced by it (`reduce_rows`).

An inner join reports that the columns of a hash key determine each other, also
for a binding-compatible key, where a null goes with every value. A group join
repeats what its right input reports, but a row without a match has the keys of
the left input in the columns of the right one (`dependency_fails`).
-/
import GengoDB.FunctionalDependencies

namespace GengoDB.Dependencies

open Finset

variable {C V : Type}

/-! ## Soundness -/

section Soundness

variable {rows : List (Row C V)} {cols L X : Finset C} {fds : List (Finset C × Finset C)}
  {d : FunctionalDependencies C}

/-- The dependencies of a plan with the columns `cols`, whose rows have the
columns `L`. -/
def Holds (cols L : Finset C) (rows : List (Row C V)) (fds : List (Finset C × Finset C)) : Prop :=
  ∀ fd ∈ fds, (fd.1 ⊆ cols ∧ fd.1.Nonempty) ∧ (fd.1 ⊆ L → fd.2 ⊆ L ∧ Determines rows fd.1 fd.2)

structure Sound (cols L : Finset C) (rows : List (Row C V)) (d : FunctionalDependencies C) : Prop where
  holds : Holds cols L rows d.fds
  key : ∀ k, d.key = some k → k ⊆ L ∧ DuplicateFree rows k

theorem Holds.append {fds' : List (Finset C × Finset C)} (h : Holds cols L rows fds) (h' : Holds cols L rows fds') :
    Holds cols L rows (fds ++ fds') :=
  fun fd hfd => (List.mem_append.1 hfd).elim (h fd) (h' fd)

/-- Columns with equal values in every row. -/
theorem Holds.insertEqual {l r : C} (h : Holds cols L rows d.fds) (hl : l ∈ L) (hr : r ∈ L) (hcols : L ⊆ cols)
    (heq : ∀ row ∈ rows, row l = row r) : Holds cols L rows (d.insertEqual l r).fds := by
  refine (h.append ?_).append ?_
  all_goals
    intro fd hfd
    obtain rfl := List.mem_singleton.1 hfd
    simp only [singleton_subset_iff, singleton_nonempty, hl, hr, hcols hl, hcols hr, Determines, Agree,
      mem_singleton, forall_eq, true_and, forall_true_left]
    intro row hrow row' hrow' hsame
    simpa only [heq row hrow, heq row' hrow'] using hsame

theorem Holds.insertPred [DecidableEq V] {pred : Pred C V} (h : Holds cols L rows d.fds) (hcols : L ⊆ cols)
    (hpred : ∀ l r, pred = .eq l r → l ∈ L ∧ r ∈ L) (hrows : ∀ row ∈ rows, pred.holds row) :
    Holds cols L rows (d.insertPred pred).fds := by
  cases pred with
  | other fn => exact h
  | eq l r =>
    obtain ⟨hl, hr⟩ := hpred l r rfl
    refine h.insertEqual hl hr hcols fun row hrow => ?_
    have hholds := hrows row hrow
    simp only [Pred.holds, Bool.and_eq_true, beq_iff_eq] at hholds
    exact hholds.2

variable [DecidableEq C]

theorem Holds.round (h : Holds cols L rows fds) {s : Finset C} (hs : s ⊆ L) (hX : Determines rows X s) :
    (fds.foldl (fun s fd => if fd.1 ⊆ s then s ∪ fd.2 else s) s) ⊆ L ∧
      Determines rows X (fds.foldl (fun s fd => if fd.1 ⊆ s then s ∪ fd.2 else s) s) := by
  induction fds generalizing s with
  | nil => exact ⟨hs, hX⟩
  | cons fd fds ih =>
    obtain ⟨hfd, hrest⟩ := List.forall_mem_cons.1 h
    rw [List.foldl_cons]
    split
    · next hsub =>
      obtain ⟨hY, hdet⟩ := hfd.2 (hsub.trans hs)
      refine ih hrest (union_subset hs hY) fun r hr t ht hagree c hc => ?_
      have hst := hX r hr t ht hagree
      rcases mem_union.1 hc with hc | hc
      · exact hst c hc
      · exact hdet r hr t ht (fun e he => hst e (hsub he)) c hc
    · exact ih hrest hs hX

/-- **`expand`** adds what is determined. -/
theorem Holds.expand (h : Holds cols L rows d.fds) (hX : X ⊆ L) : Determines rows X (d.expand X) := by
  have hloop n s (hs : s ⊆ L) (hdet : Determines rows X s) :
      Determines rows X (d.expandFrom n s) := by
    induction n generalizing s with
    | zero => exact hdet
    | succ n ih =>
      have hround := h.round hs hdet
      rw [FunctionalDependencies.expandFrom]
      split
      · exact ih _ hround.1 hround.2
      · exact hround.2
  exact hloop _ X hX fun _ _ _ _ hagree => hagree

end Soundness

/-! ## Operators -/

section Operators

variable [DecidableEq C] {L R : Finset C} {a b row : Row C V} {l r found : List (Row C V)} {g : GroupJoin C V}

variable [DecidableEq V]

namespace GroupJoin

end GroupJoin

end Operators

namespace Plan

/-! ## The operators -/

variable [DecidableEq C] {t child left right : Plan C V} {keys : List (HashKey C)} {mapping : List (String × C)}
  {primaryKey : Finset String} {pred : Pred C V}

variable [DecidableEq V]

/-- What is reported for a plan holds. -/
def Reports (t : Plan C V) : Prop := Sound t.columns t.live t.rows t.getFDs

/-- What is reported for an input, whose columns are passed on or not, besides
new columns `N`. -/
theorem Reports.passed {N : Finset C} (h : child.Reports) (keeps : Bool) (hcols : child.columns ⊆ t.columns)
    (hlive : t.live = (if keeps then child.live else ∅) ∪ N) (hN : Disjoint N child.columns)
    (hrows : keeps → ∀ r ∈ t.rows, ∃ s ∈ child.rows, Agree child.live r s) :
    Holds t.columns t.live t.rows child.getFDs.fds := by
  intro fd hfd
  obtain ⟨⟨hin, hne⟩, hholds⟩ := h.holds fd hfd
  refine ⟨⟨hin.trans hcols, hne⟩, fun hsub => ?_⟩
  have hX : fd.1 ⊆ if keeps then child.live else ∅ := fun c hc =>
    (mem_union.1 (hlive ▸ hsub hc)).resolve_right fun hn => disjoint_left.1 hN hn (hin hc)
  cases keeps with
  | false =>
    obtain ⟨c, hc⟩ := hne
    exact absurd (hX hc) (notMem_empty c)
  | true =>
    obtain ⟨hY, hdet⟩ := hholds hX
    refine ⟨hlive ▸ hY.trans subset_union_left, fun r hr s hs hagree c hc => ?_⟩
    obtain ⟨r', hr', hrr⟩ := hrows rfl r hr
    obtain ⟨s', hs', hss⟩ := hrows rfl s hs
    have hagree' : Agree fd.1 r' s' := fun c hc => by rw [← hrr c (hX hc), hagree c hc, hss c (hX hc)]
    rw [hrr c (hY hc), hdet r' hr' s' hs' hagree' c hc, hss c (hY hc)]

/-- An operator that keeps some of the rows. -/
theorem Reports.filtered (h : child.Reports) (t : Plan C V) {p : Row C V → Bool} (hcols : child.columns ⊆ t.columns)
    (hlive : t.live = child.live) (hrows : t.rows = child.rows.filter p) :
    Sound t.columns t.live t.rows child.getFDs := by
  refine ⟨h.passed true hcols (hlive.trans (union_empty _).symm) (disjoint_empty_left _) fun _ r hr => ?_,
    fun k hk => ?_⟩
  · rw [hrows] at hr
    exact ⟨r, List.mem_of_mem_filter hr, fun _ _ => rfl⟩
  · rw [hlive, hrows]
    exact ⟨(h.key k hk).1, (h.key k hk).2.filter _⟩

end Plan

end GengoDB.Dependencies
