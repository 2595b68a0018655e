/-
Runs of the work-stealing iteration: no worker waits forever, every run ends,
and which configurations run every unit on its own chunk.

Every step lowers a measure: the rank of a worker's program counter falls, or
a unit is handed out. With `Inv` the number of units handed out is bounded.
-/
import GengoDB.WorkStealingFacts
import Mathlib.Data.Fintype.BigOperators
import Mathlib.Algebra.Order.BigOperators.Group.Finset

namespace GengoDB.Steal

open State

variable {c : Config} {s s' : State c.workers} {w : Fin c.workers} {u m : ℕ}

/-! ## Progress -/

/-- A worker that holds its mutex can go on. -/
theorem step_of_locked (s : State c.workers) (v : Fin c.workers) (h : s.locked v) : ∃ s', step c v s = some s' := by
  rw [step.eq_def]
  rcases (locked_iff s v).mp h with hpc | ⟨k, hpc⟩
  · rw [hpc]
    exact ⟨_, rfl⟩
  · rw [hpc]
    dsimp only
    split <;> exact ⟨_, rfl⟩

theorem Inv.progress (hi : Inv c s) (h : s.pc w ≠ .done) : ∃ v s', step c v s = some s' := by
  -- either `w` can go on, or it waits for a worker that holds its mutex
  have hcase : (∃ s', step c w s = some s') ∨ ∃ v, s.locked v := by
    have hlast := (hi.worker w).last
    rw [step.eq_def]
    cases hpc : s.pc w with
    | done => exact absurd hpc h
    | lastVictim | lastTake =>
      obtain ⟨v, hv⟩ := Option.isSome_iff_exists.mp (hlast (by simp [hpc]))
      by_cases hl : s.locked v
      · exact .inr ⟨v, hl⟩
      · simp only [hv, hl, Bool.false_eq_true, ↓reduceIte]
        left
        split <;> exact ⟨_, rfl⟩
    | look i | take i =>
      by_cases hl : s.locked (other w i)
      · exact .inr ⟨_, hl⟩
      · simp only [hl, Bool.false_eq_true, ↓reduceIte]
        left
        (repeat' split) <;> exact ⟨_, rfl⟩
    | own | claim k =>
      left
      dsimp only
      (repeat' split) <;> exact ⟨_, rfl⟩
    | idle | fetch | finish | perform | run b => exact .inl ⟨_, rfl⟩
  rcases hcase with ⟨s', hs'⟩ | ⟨v, hv⟩
  · exact ⟨w, s', hs'⟩
  · exact ⟨v, step_of_locked s v hv⟩

/-! ## Termination -/

/-- How far a worker is from the end if it is handed nothing. -/
def Pc.rank (workers : ℕ) : Pc → ℕ
  | .done => 0
  | .finish => 1
  | .take i => 2 * (workers - i) + 1
  | .look i => 2 * (workers - i) + 2
  | .lastTake => 2 * workers + 3
  | .lastVictim => 2 * workers + 4
  | .claim _ => 2 * workers + 5
  | .fetch => 2 * workers + 6
  | .own => 2 * workers + 7
  | .idle => 2 * workers + 8
  | .run _ => 2 * workers + 9
  | .perform => 2 * workers + 10

theorem Next.rank (hw : Worker c s w) (h : Next c w s s') :
    s'.handed = s.handed ∧ (s'.pc w).rank c.workers < (s.pc w).rank c.workers ∨
      s'.handed.length = s.handed.length + 1 ∧ s'.pc w = .perform := by
  have hafter : (s.afterOwn w).rank c.workers < 2 * c.workers + 5 := by
    rcases afterOwn_eq s w with h | h <;> rw [h] <;> simp only [Pc.rank] <;> omega
  cases h with
  | ownUnit | adopt | lastUnit | takeUnit =>
    exact .inr ⟨by simp [State.accept, State.adopt, State.bump, State.steal], accept_pc _ _ _ _⟩
  | takeLost hpc =>
    have := hw.bound _ hpc
    refine .inl ⟨rfl, ?_⟩
    rw [goto_pc, hpc]
    simp only [Pc.rank]
    omega
  | ownLost hpc | noChunk hpc =>
    refine .inl ⟨rfl, ?_⟩
    rw [goto_pc, hpc]
    exact hafter.trans_le (by simp [Pc.rank])
  | exhausted hpc | enter hpc | ownEmpty hpc | fetch hpc | lastHas hpc | lastEmpty hpc | lastLost hpc | lookHas hpc
  | lookEmpty hpc | lookEnd hpc | finish hpc | perform hpc | run hpc =>
    refine .inl ⟨rfl, ?_⟩
    rw [goto_pc, hpc]
    simp only [Pc.rank]
    omega

/-- Every unit, with the unit 0 of a chunk without rows. -/
def Config.allUnits (c : Config) : List (ℕ × ℕ) :=
  (List.range c.chunks.length).flatMap fun k => (List.range (max 1 (c.units k))).map (k, ·)

theorem Chunks.length_handed_le (hc : Chunks c s) : s.handed.length ≤ c.allUnits.length := by
  rw [← List.length_map]
  refine (hc.nodup.subperm fun ⟨k, u⟩ h => ?_).length_le
  obtain ⟨⟨v, k', u'⟩, hmem, heq⟩ := List.mem_map.mp h
  cases heq
  obtain ⟨hk, -, hu⟩ := hc.bound _ _ ⟨v, hmem⟩
  simp only [Config.allUnits, List.mem_flatMap, List.mem_map, List.mem_range]
  exact ⟨_, hk, _, hu, rfl⟩

def measure (c : Config) (s : State c.workers) : ℕ :=
  ∑ v, (s.pc v).rank c.workers + (2 * c.workers + 11) * (c.allUnits.length - s.handed.length)

theorem sum_eq_of_frame (f g : Fin c.workers → ℕ) (h : ∀ v, v ≠ w → g v = f v) : ∑ v, g v + f w = ∑ v, f v + g w := by
  rw [← Finset.add_sum_erase _ g (Finset.mem_univ w), ← Finset.add_sum_erase _ f (Finset.mem_univ w),
    Finset.sum_congr rfl fun v hv => h v (Finset.ne_of_mem_erase hv)]
  ring

theorem Inv.measure_lt (hfit : c.UnitsFit) (hi : Inv c s) (h : step c w s = some s') : measure c s' < measure c s := by
  have hn := next_of_step h
  have hsum := sum_eq_of_frame (fun v => (s.pc v).rank c.workers) (fun v => (s'.pc v).rank c.workers)
    fun v hv => by rw [hn.frame.pc v hv]
  unfold measure
  rcases hn.rank (hi.worker w) with ⟨hh, hlt⟩ | ⟨hh, hpc⟩
  · rw [hh]
    omega
  · have hle := (hi.next hfit hn).chunks.length_handed_le
    have hrank : Pc.perform.rank c.workers = 2 * c.workers + 10 := rfl
    rw [hpc] at hsum
    obtain ⟨m, hm⟩ : ∃ m, c.allUnits.length - s.handed.length = m + 1 := ⟨_, (Nat.sub_add_cancel (by omega)).symm⟩
    have hm' : c.allUnits.length - s'.handed.length = m := by omega
    rw [hm, hm', Nat.mul_succ]
    omega

/-! ## The iteration -/

/-- What the iteration is for, in every interleaving. -/
structure Correct (c : Config) : Prop where
  /-- no unit is handed out twice -/
  once : ∀ s, Reachable c s → (s.handed.map Prod.snd).Nodup
  /-- what is handed out is a unit of a chunk; a chunk without rows has unit 0 -/
  real : ∀ s, Reachable c s → ∀ k u, s.Handed k u → k < c.chunks.length ∧ u < max 1 (c.units k)
  /-- a worker back in `allocateWork` has run what it was handed, on the chunk it was taken from -/
  runs : ∀ s, Reachable c s → ∀ w, s.pc w ≠ .perform → (∀ b, s.pc w ≠ .run b) → s.ranBy w = s.handedTo w
  /-- exhaustion is reported only after every unit has been handed out -/
  exhausted : ∀ s, Reachable c s → (∃ w, s.pc w = .done) → AllHanded c s
  /-- the workers are not all waiting before the end -/
  progress : ∀ s, Reachable c s → (∃ w, s.pc w ≠ .done) → ∃ w s', step c w s = some s'
  /-- the workers come to the end -/
  ends : ¬ ∃ run : ℕ → State c.workers, run 0 = State.init c.workers ∧
    ∀ i, ∃ w, step c w (run i) = some (run (i + 1))

theorem correct_of_unitsFit (hfit : c.UnitsFit) : Correct c where
  once := fun s h => (h.inv hfit).chunks.nodup
  real := fun s h k u hku => by
    obtain ⟨hk, -, hu⟩ := (h.inv hfit).chunks.bound k u hku
    exact ⟨hk, hu⟩
  runs := fun s h w hpc hpc' => (((h.inv hfit).worker w).idle_handedTo hpc hpc').symm
  exhausted := fun s h hdone => (h.inv hfit).exhausted (.inr hdone)
  progress := fun s h ⟨w, hw⟩ => (h.inv hfit).progress hw
  ends := by
    rintro ⟨run, hinit, hstep⟩
    have hreach : ∀ i, Reachable c (run i) := by
      intro i
      induction i with
      | zero => exact hinit ▸ .init
      | succ i ih =>
        obtain ⟨w, hw⟩ := hstep i
        exact .step w ih hw
    have hfall : ∀ i, measure c (run i) + i ≤ measure c (run 0) := by
      intro i
      induction i with
      | zero => exact le_rfl
      | succ i ih =>
        obtain ⟨w, hw⟩ := hstep i
        have := ((hreach i).inv hfit).measure_lt hfit hw
        omega
    have := hfall (measure c (run 0) + 1)
    omega

theorem correct_of_no_workers (h : c.workers = 0) : Correct c := by
  have hempty : IsEmpty (Fin c.workers) := by rw [h]; infer_instance
  have hinit : ∀ s, Reachable c s → s = init c.workers := fun s hs => by
    cases hs with
    | init => rfl
    | step w => exact hempty.elim w
  refine ⟨fun s hs => ?_, fun s hs k u ⟨w, _⟩ => hempty.elim w, fun s hs w => hempty.elim w,
    fun s hs ⟨w, _⟩ => hempty.elim w, fun s hs ⟨w, _⟩ => hempty.elim w, fun ⟨run, _, hstep⟩ => ?_⟩
  · rw [hinit s hs]
    exact List.nodup_nil
  · obtain ⟨w, -⟩ := hstep 0
    exact hempty.elim w

/-! ## A unit that is negative -/

/-- A state in which `w` has fetched chunks and is at a unit of the last one. -/
structure Alone (c : Config) (w : Fin c.workers) (fetched unit units : ℕ) (s : State c.workers) : Prop where
  reachable : Reachable c s
  pc : s.pc w = .idle
  exhausted : s.workExhausted = false
  startIndex : s.startIndex = fetched
  resvCursor : s.resvCursor w = unit
  unitAmount : s.unitAmount w = units
  stealWorkerId : s.stealWorkerId w = none

/-- From `perform` to the next call of `allocateWork`. -/
theorem runs_back (hr : Reachable c s) (hpc : s.pc w = .perform) (hid : s.resvId w = toSize (toInt u)) :
    ∃ s', Reachable c s' ∧ s' = (s.unitRun w (s.batchId (s.target w)) (toInt (toSize (toInt u)))).goto w .idle := by
  have h1 : step c w s = some (s.goto w (.run (s.batchId (s.target w)))) := by
    rw [step.eq_def, hpc]
  have h2 : step c w (s.goto w (.run (s.batchId (s.target w)))) =
      some ((s.unitRun w (s.batchId (s.target w)) (toInt (toSize (toInt u)))).goto w .idle) := by
    rw [step.eq_def]
    simp [goto, unitRun, hid]
  exact ⟨_, .step w (.step w hr h1) h2, rfl⟩

variable {a : ℕ}

theorem Alone.enter (h : Alone c w m u a s) : Reachable c (s.goto w .own) :=
  .step w h.reachable (by rw [step.eq_def, h.pc, h.exhausted]; rfl)

theorem Alone.unit (h : Alone c w m u a s) (hu : u < a) (hlost : toInt u ≠ -1) :
    ∃ s', Alone c w m (u + 1) a s' ∧ s'.handedTo w = s.handedTo w ++ [(w, s.batchId w, u)] ∧
      (toInt (toSize (toInt u)) < 0 → s'.ranBy w = s.ranBy w) := by
  have hown : step c w (s.goto w .own) = some (((s.goto w .own).bump w).accept w (s.batchId w) u) := by
    have hcur : (s.goto w .own).resvCursor w = u := h.resvCursor
    have hunits : (s.goto w .own).unitAmount w = a := h.unitAmount
    rw [step.eq_def, goto_pc]
    simp only [hcur, hunits, hu, hlost, ne_eq]
    rfl
  obtain ⟨s', hreach, hs'⟩ := runs_back (u := u) (.step w h.enter hown) (accept_pc _ _ _ _) (by simp [accept])
  refine ⟨s', ⟨hreach, ?_, ?_, ?_, ?_, ?_, ?_⟩, ?_, fun hneg => ?_⟩ <;> subst hs'
  · exact goto_pc _ _ _
  · exact h.exhausted
  · exact h.startIndex
  · simp [goto, unitRun, accept, bump, h.resvCursor]
  · exact h.unitAmount
  · exact h.stealWorkerId
  · simp [goto, unitRun, accept, bump, handedTo]
  · simp [goto, unitRun, accept, bump, ranBy, hneg]

theorem Alone.chunk (h : Alone c w m u a s) (hu : a ≤ u) (hm : m < c.chunks.length) :
    ∃ s', Alone c w (m + 1) 1 (c.units m) s' := by
  have hown : step c w (s.goto w .own) = some (((s.goto w .own).bump w).goto w .fetch) := by
    have hcur : (s.goto w .own).resvCursor w = u := h.resvCursor
    have hunits : (s.goto w .own).unitAmount w = a := h.unitAmount
    rw [step.eq_def, goto_pc]
    simp only [hcur, hunits, Nat.not_lt.mpr hu, ↓reduceIte]
  generalize ht : ((s.goto w .own).bump w).goto w .fetch = t at hown
  have hfetch : step c w t = some ({ t with startIndex := m + 1 }.goto w (.claim m)) := by
    have hidx : t.startIndex = m := by rw [← ht]; exact h.startIndex
    rw [step.eq_def, ← ht, goto_pc, ht]
    simp only [hidx]
  generalize ht' : { t with startIndex := m + 1 }.goto w (.claim m) = t' at hfetch
  have hadopt : step c w t' = some ((t'.adopt w m (c.units m)).accept w m 0) := by
    rw [step.eq_def, ← ht', goto_pc]
    simp only [hm, ↓reduceIte]
  have hreach := Reachable.step w (.step w (.step w h.enter hown) hfetch) hadopt
  obtain ⟨s', hreach', hs'⟩ := runs_back (u := 0) hreach (accept_pc _ _ _ _) (by simp [accept])
  refine ⟨s', hreach', ?_, ?_, ?_, ?_, ?_, ?_⟩ <;> subst hs'
  · exact goto_pc _ _ _
  · rw [← ht', ← ht]; exact h.exhausted
  · rw [← ht']; rfl
  · simp [goto, unitRun, accept, adopt]
  · simp [goto, unitRun, accept, adopt]
  · rw [← ht', ← ht]; exact h.stealWorkerId

theorem toInt_ne_neg_one (h : u ≤ 2 ^ 31) : toInt u ≠ -1 := by
  rcases Nat.lt_or_eq_of_le h with h | rfl
  · rw [toInt_of_lt h]
    omega
  · decide

theorem Alone.walk {u' : ℕ} (h : Alone c w m u a s) (hle : u ≤ u') (ha : u' ≤ a) (hfit : u' ≤ 2 ^ 31) :
    ∃ s', Alone c w m u' a s' := by
  induction u', hle using Nat.le_induction with
  | base => exact ⟨s, h⟩
  | succ u' _ ih =>
    obtain ⟨s1, h1⟩ := ih (by omega) (by omega)
    obtain ⟨s2, h2, -⟩ := h1.unit (by omega) (toInt_ne_neg_one (by omega))
    exact ⟨s2, h2⟩

/-- One worker alone gets to every chunk after chunks that fit. -/
theorem exists_alone (w : Fin c.workers) (hm : m < c.chunks.length) (hfit : ∀ k < m, c.units k ≤ 2 ^ 31) :
    ∃ s, Alone c w (m + 1) 1 (c.units m) s := by
  induction m with
  | zero =>
    have hinit : Alone c w 0 0 0 (init c.workers) := ⟨.init, rfl, rfl, rfl, rfl, rfl, rfl⟩
    exact hinit.chunk le_rfl hm
  | succ m ih =>
    obtain ⟨s, hs⟩ := ih (by omega) fun k hk => hfit k (by omega)
    have hfits := hfit m (by omega)
    rcases Nat.eq_zero_or_pos (c.units m) with hzero | hpos
    · exact hs.chunk (by omega) hm
    · obtain ⟨s', hs'⟩ := hs.walk hpos le_rfl hfits
      exact hs'.chunk le_rfl hm

theorem not_correct_of_large {k : ℕ} (w : Fin c.workers) (hk : k < c.chunks.length) (hlarge : 2 ^ 31 < c.units k) :
    ¬ Correct c := by
  intro hcorrect
  have hex : ∃ k, k < c.chunks.length ∧ 2 ^ 31 < c.units k := ⟨k, hk, hlarge⟩
  obtain ⟨hm, hunits⟩ := Nat.find_spec hex
  generalize hfind : Nat.find hex = m at hm hunits
  have hfit : ∀ k < m, c.units k ≤ 2 ^ 31 := fun k hk => by
    by_contra hgt
    exact Nat.find_min hex (hfind ▸ hk) ⟨by omega, by omega⟩
  obtain ⟨s, hs⟩ := exists_alone w hm hfit
  obtain ⟨s1, h1⟩ := hs.walk (by decide) (by omega) le_rfl
  -- unit 2^31 is handed out and not run
  obtain ⟨s2, h2, hhanded, hran⟩ := h1.unit hunits (toInt_ne_neg_one le_rfl)
  have hbefore := hcorrect.runs s1 h1.reachable w (by simp [h1.pc]) (by simp [h1.pc])
  have hafter := hcorrect.runs s2 h2.reachable w (by simp [h2.pc]) (by simp [h2.pc])
  rw [hran (by decide), hhanded, hbefore] at hafter
  simp at hafter

/-- Under every interleaving the units of all chunks are handed out once, run
on their own chunk and all handed out before exhaustion is reported, exactly if
no chunk has more than 2^31 units. -/
theorem iteration_correct_iff (c : Config) : Correct c ↔ c.workers = 0 ∨ c.UnitsFit := by
  constructor
  · intro h
    by_contra hneg
    rw [not_or] at hneg
    obtain ⟨hw, hfit⟩ := hneg
    simp only [Config.UnitsFit, not_forall, Nat.not_le] at hfit
    obtain ⟨k, hk, hlarge⟩ := hfit
    exact not_correct_of_large ⟨0, Nat.pos_of_ne_zero hw⟩ hk hlarge h
  · rintro (h | h)
    · exact correct_of_no_workers h
    · exact correct_of_unitsFit h

/-- One worker and one chunk: its last unit is the first negative one. -/
theorem large_chunk_not_correct :
    ¬ Correct { workers := 1, chunks := [20000 * 2 ^ 31 + 1], splitSize := 20000, splitSize_pos := by decide } :=
  not_correct_of_large 0 (k := 0) (by decide) (by decide)

end GengoDB.Steal
