/-
What the workers hand out under any interleaving.

`Chunks` follows every chunk from the shared counter through the worker that
adopts it to the end of its units; `Worker` says what a worker knows at each
point of `allocateWork` and what it still has to run. `Inv` is kept by every
step as long as no chunk has more than 2^31 units. A larger chunk has a unit
whose number is negative as an `int`: it is handed out and not run.
-/
import GengoDB.WorkStealing
import Mathlib.Algebra.BigOperators.Group.Finset.Basic
import Mathlib.Data.List.Nodup
import Mathlib.Tactic.Ring

namespace GengoDB.Steal

open State

variable {c : Config} {s s' : State c.workers} {w : Fin c.workers} {u k : ℕ} {v : Fin c.workers}

/-! ## Unit numbers -/

theorem toInt_of_lt (h : u < 2 ^ 31) : toInt u = u := by
  unfold toInt
  rw [BitVec.toInt_eq_toNat_of_lt] <;> simp only [BitVec.toNat_ofNat] <;> omega

theorem toInt_toSize_of_lt (h : u < 2 ^ 31) : toInt (toSize (toInt u)) = u := by
  have hsize : toSize (toInt u) = u := by
    rw [toInt_of_lt h, toSize]
    simp only [BitVec.ofInt_natCast, BitVec.toNat_ofNat]
    omega
  rw [hsize, toInt_of_lt h]

/-- No chunk has a unit that is negative as an `int`. -/
def Config.UnitsFit (c : Config) : Prop := ∀ k < c.chunks.length, c.units k ≤ 2 ^ 31

instance (c : Config) : Decidable c.UnitsFit := inferInstanceAs (Decidable (∀ k < c.chunks.length, c.units k ≤ 2 ^ 31))

/-! ## What a step does -/

/-- The steps, with what the code has tested. -/
inductive Next (c : Config) (w : Fin c.workers) (s : State c.workers) : State c.workers → Prop
  | exhausted : s.pc w = .idle → s.workExhausted → Next c w s (s.goto w .done)
  | enter : s.pc w = .idle → Next c w s (s.goto w .own)
  | ownUnit : s.pc w = .own → s.resvCursor w < s.unitAmount w →
      Next c w s ((s.bump w).accept w (s.batchId w) (s.resvCursor w))
  | ownLost : s.pc w = .own → s.resvCursor w < s.unitAmount w → toInt (s.resvCursor w) = -1 →
      Next c w s ((s.bump w).goto w (s.afterOwn w))
  | ownEmpty : s.pc w = .own → s.unitAmount w ≤ s.resvCursor w → Next c w s ((s.bump w).goto w .fetch)
  | fetch : s.pc w = .fetch →
      Next c w s ({ s with startIndex := s.startIndex + 1 }.goto w (.claim s.startIndex))
  | adopt {k : ℕ} : s.pc w = .claim k → k < c.chunks.length →
      Next c w s ((s.adopt w k (c.units k)).accept w k 0)
  | noChunk {k : ℕ} : s.pc w = .claim k → c.chunks.length ≤ k → Next c w s (s.goto w (s.afterOwn w))
  | lastHas {v : Fin c.workers} : s.pc w = .lastVictim → s.stealWorkerId w = some v →
      Next c w s (s.goto w .lastTake)
  | lastEmpty {v : Fin c.workers} : s.pc w = .lastVictim → s.stealWorkerId w = some v →
      Next c w s ((s.steal w none).goto w (.look 1))
  | lastUnit {v : Fin c.workers} : s.pc w = .lastTake → s.stealWorkerId w = some v →
      s.resvCursor v < s.unitAmount v →
      Next c w s ((s.bump v).accept w (s.batchId v) (s.resvCursor v))
  | lastLost {v : Fin c.workers} : s.pc w = .lastTake → s.stealWorkerId w = some v →
      s.unitAmount v ≤ s.resvCursor v ∨ toInt (s.resvCursor v) = -1 →
      Next c w s (((s.bump v).steal w none).goto w (.look 1))
  | lookHas {i : ℕ} : s.pc w = .look i → i < c.workers → Next c w s (s.goto w (.take i))
  | lookEmpty {i : ℕ} : s.pc w = .look i → i < c.workers → ¬ s.locked (State.other w i) →
      s.unitAmount (State.other w i) ≤ s.resvCursor (State.other w i) → Next c w s (s.goto w (.look (i + 1)))
  | lookEnd {i : ℕ} : s.pc w = .look i → c.workers ≤ i → Next c w s (s.goto w .finish)
  | takeUnit {i : ℕ} : s.pc w = .take i → ¬ s.locked (State.other w i) →
      s.resvCursor (State.other w i) < s.unitAmount (State.other w i) →
      Next c w s (((s.bump (State.other w i)).steal w (some (State.other w i))).accept w
        (s.batchId (State.other w i)) (s.resvCursor (State.other w i)))
  | takeLost {i : ℕ} : s.pc w = .take i → ¬ s.locked (State.other w i) →
      s.unitAmount (State.other w i) ≤ s.resvCursor (State.other w i) ∨
        toInt (s.resvCursor (State.other w i)) = -1 →
      Next c w s ((s.bump (State.other w i)).goto w (.look (i + 1)))
  | finish : s.pc w = .finish → Next c w s ({ s with workExhausted := true }.goto w .done)
  | perform : s.pc w = .perform → Next c w s (s.goto w (.run (s.batchId (s.target w))))
  | run {b : ℕ} : s.pc w = .run b →
      Next c w s ((s.unitRun w b (toInt (s.resvId w))).goto w .idle)

theorem next_of_step (h : step c w s = some s') : Next c w s s' := by
  rw [step.eq_def] at h
  split at h
  case h_1 hpc =>
    split at h <;> cases h
    · exact .exhausted hpc ‹_›
    · exact .enter hpc
  case h_2 hpc =>
    dsimp only at h
    split_ifs at h with hcur hlost <;> cases h
    · exact .ownUnit hpc hcur
    · exact .ownLost hpc hcur (not_not.mp hlost)
    · exact .ownEmpty hpc (Nat.le_of_not_lt hcur)
  case h_3 hpc => cases h; exact .fetch hpc
  case h_4 k hpc =>
    split_ifs at h with hk <;> cases h
    · exact .adopt hpc hk
    · exact .noChunk hpc (Nat.le_of_not_lt hk)
  case h_5 hpc =>
    split at h
    · cases h
    · split_ifs at h <;> cases h
      · exact .lastHas hpc ‹_›
      · exact .lastEmpty hpc ‹_›
  case h_6 hpc =>
    split at h
    · cases h
    · dsimp only at h
      split_ifs at h with _ hlost <;> cases h
      · exact .lastLost hpc ‹_› hlost
      · exact .lastUnit hpc ‹_› (Nat.lt_of_not_le (not_or.mp hlost).1)
  case h_7 i hpc =>
    dsimp only at h
    split_ifs at h with hi hlock hmore <;> cases h
    · exact .lookHas hpc hi
    · exact .lookEmpty hpc hi hlock (by simpa [hasMoreWork] using hmore)
    · exact .lookEnd hpc (Nat.le_of_not_lt hi)
  case h_8 i hpc =>
    dsimp only at h
    split_ifs at h with hlock hlost <;> cases h
    · exact .takeLost hpc hlock hlost
    · exact .takeUnit hpc hlock (Nat.lt_of_not_le (not_or.mp hlost).1)
  case h_9 hpc => cases h; exact .finish hpc
  case h_10 hpc => cases h; exact .perform hpc
  case h_11 b hpc => cases h; exact .run hpc
  case h_12 => cases h

/-! ## The way of a chunk -/

/-- A chunk is not yet fetched, or in the hands of one worker that has fetched
it, or the current chunk of one worker with the units below its cursor handed
out, or handed out as a whole. A chunk without rows still has its unit 0
handed out. -/
structure Chunks (c : Config) (s : State c.workers) : Prop where
  nodup : (s.handed.map Prod.snd).Nodup
  bound : ∀ k u, s.Handed k u → k < c.chunks.length ∧ k < s.startIndex ∧ u < max 1 (c.units k)
  current : ∀ v, s.unitAmount v ≠ 0 → s.batchId v < c.chunks.length ∧ s.batchId v < s.startIndex ∧
    s.unitAmount v = c.units (s.batchId v) ∧
    ∀ u, s.Handed (s.batchId v) u ↔ u < min (s.resvCursor v) (s.unitAmount v)
  distinct : ∀ v v', s.unitAmount v ≠ 0 → s.unitAmount v' ≠ 0 → s.batchId v = s.batchId v' → v = v'
  claimed : ∀ v k, s.pc v = .claim k → k < s.startIndex ∧ (∀ u, ¬ s.Handed k u) ∧
    (∀ v', s.unitAmount v' ≠ 0 → s.batchId v' ≠ k) ∧ ∀ v', s.pc v' = .claim k → v' = v
  covered : ∀ k < c.chunks.length, k < s.startIndex → (∃ v, s.pc v = .claim k) ∨
    (∃ v, s.unitAmount v ≠ 0 ∧ s.batchId v = k) ∨ ∀ u < c.units k, s.Handed k u
  emptied : ∀ v, s.locked v → s.unitAmount v ≤ s.resvCursor v

theorem Chunks.init (c : Config) : Chunks c (init c.workers) where
  nodup := List.nodup_nil
  bound := fun k u ⟨v, hv⟩ => by simp [State.init] at hv
  current := fun v hv => absurd rfl hv
  distinct := fun v v' hv => absurd rfl hv
  claimed := fun v k hv => by simp [State.init] at hv
  covered := fun k _ hk => by simp [State.init] at hk
  emptied := fun v hv => by simp [State.init, State.locked] at hv

theorem Chunks.unit_fits (hfit : c.UnitsFit) (hc : Chunks c s) (h : s.resvCursor v < s.unitAmount v) :
    s.resvCursor v < 2 ^ 31 := by
  obtain ⟨hk, -, hunits, -⟩ := hc.current v (by omega)
  have := hfit _ hk
  omega

theorem Chunks.not_lost (hfit : c.UnitsFit) (hc : Chunks c s)
    (h : s.unitAmount v ≤ s.resvCursor v ∨ toInt (s.resvCursor v) = -1) : s.unitAmount v ≤ s.resvCursor v := by
  by_contra hlt
  have hlost := h.resolve_left hlt
  rw [toInt_of_lt (hc.unit_fits hfit (Nat.lt_of_not_le hlt))] at hlost
  omega

/-- What a step of `w` does to the chunks. -/
inductive Effect (c : Config) (w : Fin c.workers) (s s' : State c.workers) : Prop
  | quiet (index : s'.startIndex = s.startIndex) (batchId : s'.batchId = s.batchId)
      (unitAmount : s'.unitAmount = s.unitAmount) (handed : s'.handed = s.handed)
      (resvCursor : ∀ v, s'.resvCursor v = s.resvCursor v ∨
        s.unitAmount v ≤ s.resvCursor v ∧ s'.resvCursor v = s.resvCursor v + 1)
      (was : ∀ k, s.pc w = .claim k → c.chunks.length ≤ k) (now : ∀ k, s'.pc w ≠ .claim k)
      (fetch : s'.pc w = .fetch → s.unitAmount w ≤ s.resvCursor w)
  | hand (v : Fin c.workers) (unit : s.resvCursor v < s.unitAmount v) (index : s'.startIndex = s.startIndex)
      (batchId : s'.batchId = s.batchId) (unitAmount : s'.unitAmount = s.unitAmount)
      (handed : s'.handed = s.handed ++ [(w, s.batchId v, s.resvCursor v)])
      (resvCursor : s'.resvCursor = Function.update s.resvCursor v (s.resvCursor v + 1))
      (was : ∀ k, s.pc w ≠ .claim k) (now : s'.pc w = .perform)
  | fetch (was : s.pc w = .fetch) (eq : s' = { s with startIndex := s.startIndex + 1 }.goto w (.claim s.startIndex))
  | adopt (k : ℕ) (was : s.pc w = .claim k) (inside : k < c.chunks.length)
      (eq : s' = (s.adopt w k (c.units k)).accept w k 0)

/-- What a step of `w` leaves to the others. -/
structure Frame (w : Fin c.workers) (s s' : State c.workers) : Prop where
  pc : ∀ v, v ≠ w → s'.pc v = s.pc v
  steal : ∀ v, v ≠ w → s'.stealWorkerId v = s.stealWorkerId v
  resvId : ∀ v, v ≠ w → s'.resvId v = s.resvId v
  handedTo : ∀ v, v ≠ w → s'.handedTo v = s.handedTo v
  ranBy : ∀ v, v ≠ w → s'.ranBy v = s.ranBy v

theorem Next.frame (h : Next c w s s') : Frame w s s' := by
  constructor <;> intro v hv <;> cases h <;>
    simp [State.goto, State.bump, State.steal, State.accept, State.adopt, State.handedTo, State.ranBy,
      State.unitRun, apply_ite (List.filter _), hv, Ne.symm hv]

theorem afterOwn_eq (s : State c.workers) (w : Fin c.workers) :
    s.afterOwn w = .lastVictim ∨ s.afterOwn w = .look 1 := by
  unfold afterOwn
  split <;> simp

theorem Next.effect (hfit : c.UnitsFit) (hc : Chunks c s) (h : Next c w s s') : Effect c w s s' := by
  have hcursor : ∀ v, s.unitAmount v ≤ s.resvCursor v → ∀ v', (s.bump v).resvCursor v' = s.resvCursor v' ∨
      s.unitAmount v' ≤ s.resvCursor v' ∧ (s.bump v).resvCursor v' = s.resvCursor v' + 1 := by
    intro v hv v'
    by_cases h : v' = v
    · subst h; exact .inr ⟨hv, by simp [bump]⟩
    · exact .inl (by simp [bump, h])
  have hafter := afterOwn_eq s w
  cases h with
  | ownUnit hpc hunit => exact .hand w hunit rfl rfl rfl rfl rfl (by simp [hpc]) (by simp [accept])
  | lastUnit hpc _ hunit | takeUnit hpc _ hunit =>
    exact .hand _ hunit rfl rfl rfl rfl rfl (by simp [hpc]) (by simp [accept])
  | fetch hpc => exact .fetch hpc rfl
  | adopt hpc hk => exact .adopt _ hpc hk rfl
  | ownLost hpc hunit hlost => exact absurd (hc.not_lost hfit (.inr hlost)) (by omega)
  | ownEmpty hpc hempty =>
    exact .quiet rfl rfl rfl rfl (hcursor w hempty) (by simp [hpc]) (by simp [goto]) fun _ => hempty
  | lastLost hpc _ hlost | takeLost hpc _ hlost =>
    exact .quiet rfl rfl rfl rfl (hcursor _ (hc.not_lost hfit hlost)) (by simp [hpc]) (by simp [goto])
      (by simp [goto])
  | noChunk hpc hk =>
    refine .quiet rfl rfl rfl rfl (fun _ => .inl rfl) (by simpa [hpc] using hk) ?_ ?_ <;>
      rcases hafter with h | h <;> simp [goto, h]
  | exhausted hpc | enter hpc | lastHas hpc | lastEmpty hpc | lookHas hpc | lookEmpty hpc | lookEnd hpc
  | finish hpc | perform hpc | run hpc =>
    exact .quiet rfl rfl rfl rfl (fun _ => .inl rfl) (by simp [hpc]) (by simp [goto]) (by simp [goto])

theorem locked_iff (s : State c.workers) (v : Fin c.workers) :
    s.locked v ↔ s.pc v = .fetch ∨ ∃ k, s.pc v = .claim k := by
  unfold locked
  cases s.pc v <;> simp

theorem handed_append {chunk unit : ℕ} (h : s'.handed = s.handed ++ [(w, chunk, unit)]) :
    s'.Handed k u ↔ s.Handed k u ∨ k = chunk ∧ u = unit := by
  simp only [State.Handed, h, List.mem_append, exists_or]
  simp

theorem nodup_append {chunk unit : ℕ} (hn : (s.handed.map Prod.snd).Nodup)
    (h : s'.handed = s.handed ++ [(w, chunk, unit)]) (hnew : ¬ s.Handed chunk unit) :
    (s'.handed.map Prod.snd).Nodup := by
  rw [h, List.map_append, List.nodup_append]
  refine ⟨hn, by simp, fun x hx y hy heq => hnew ?_⟩
  obtain ⟨⟨v, k, u⟩, hmem, rfl⟩ := List.mem_map.mp hx
  simp only [List.map_cons, List.map_nil, List.mem_singleton] at hy
  have hku : (k, u) = (chunk, unit) := heq.trans hy
  cases hku
  exact ⟨v, hmem⟩

/-- The worker's old chunk, if any, is handed out as a whole. -/
theorem Chunks.handed_of_emptied (hc : Chunks c s) (hv : s.unitAmount v ≠ 0)
    (hempty : s.unitAmount v ≤ s.resvCursor v) : ∀ u < c.units (s.batchId v), s.Handed (s.batchId v) u := by
  obtain ⟨-, -, hunits, hiff⟩ := hc.current v hv
  intro u hu
  rw [hiff]
  omega

theorem Chunks.step (hc : Chunks c s) (hf : Frame w s s') (he : Effect c w s s') : Chunks c s' := by
  obtain ⟨hnodup, hbound, hcurrent, hdistinct, hclaimed, hcovered, hemptied⟩ := hc
  have hpc := hf.pc
  cases he with
  | quiet index batchId unitAmount handed resvCursor was now fetch =>
    have hH : ∀ k u, s'.Handed k u ↔ s.Handed k u := fun k u => by simp only [State.Handed, handed]
    refine ⟨by rw [handed]; exact hnodup, ?_, ?_, ?_, ?_, ?_, ?_⟩ <;> simp only [hH, index, batchId, unitAmount]
    · exact hbound
    · grind
    · exact hdistinct
    · grind
    · grind
    · grind [locked_iff]
  | hand v unit index batchId unitAmount handed resvCursor was now =>
    -- The unit is the first of its chunk that was not handed out.
    have hnew : ¬ s.Handed (s.batchId v) (s.resvCursor v) := by grind
    refine ⟨nodup_append hnodup handed hnew, ?_, ?_, ?_, ?_, ?_, ?_⟩ <;>
      simp [handed_append handed, batchId, unitAmount, resvCursor]
    · grind
    · grind
    · exact hdistinct
    · grind
    · grind
    · grind [locked_iff]
  | fetch was eq =>
    have hH : ∀ k u, s'.Handed k u ↔ s.Handed k u := fun k u => by rw [eq]; rfl
    have hnow : s'.pc w = .claim s.startIndex := by simp [eq, goto]
    obtain ⟨index, batchId, unitAmount, resvCursor, handed⟩ : s'.startIndex = s.startIndex + 1 ∧
        s'.batchId = s.batchId ∧ s'.unitAmount = s.unitAmount ∧ s'.resvCursor = s.resvCursor ∧ s'.handed = s.handed := by
      rw [eq]
      exact ⟨rfl, rfl, rfl, rfl, rfl⟩
    -- No chunk from `startIndex` on was claimed, current or handed out before.
    refine ⟨by rw [handed]; exact hnodup, ?_, ?_, ?_, ?_, ?_, ?_⟩ <;>
      simp only [hH, index, batchId, unitAmount]
    · grind
    · grind
    · exact hdistinct
    · grind
    · grind
    · grind [locked_iff]
  | adopt k was inside eq =>
    have hnow : s'.pc w = .perform := by simp [eq, accept]
    have handed : s'.handed = s.handed ++ [(w, k, 0)] := by rw [eq]; rfl
    obtain ⟨index, batchId, unitAmount, resvCursor⟩ : s'.startIndex = s.startIndex ∧
        s'.batchId = Function.update s.batchId w k ∧ s'.unitAmount = Function.update s.unitAmount w (c.units k) ∧
        ∀ v, s'.resvCursor v = if v = w then 1 else s.resvCursor v := by
      rw [eq]
      refine ⟨rfl, rfl, rfl, fun v => ?_⟩
      by_cases hv : v = w <;> simp [accept, adopt, hv]
    -- The old chunk of the worker is handed out as a whole.
    have hempty : s.unitAmount w ≤ s.resvCursor w := hemptied w (by simp [locked_iff, was])
    refine ⟨nodup_append hnodup handed ((hclaimed w k was).2.1 0), ?_, ?_, ?_, ?_, ?_, ?_⟩ <;>
      simp only [handed_append handed, index, batchId, unitAmount, Function.update_apply]
    · grind
    · grind
    · grind
    · grind
    · grind
    · intro v hlocked
      rw [locked_iff] at hlocked
      by_cases hv : v = w
      · simp [hv, hnow] at hlocked
      · rw [hpc v hv, ← locked_iff] at hlocked
        simpa [hv, resvCursor] using hemptied v hlocked

/-! ## What a worker knows -/

/-- `v` has no unit left and will get none. -/
def Spent (c : Config) (s : State c.workers) (v : Fin c.workers) : Prop :=
  c.chunks.length ≤ s.startIndex ∧ s.unitAmount v ≤ s.resvCursor v ∧ ∀ k, s.pc v = .claim k → c.chunks.length ≤ k

/-- `v` keeps its chunk. -/
def Settled (c : Config) (s : State c.workers) (v : Fin c.workers) : Prop :=
  c.chunks.length ≤ s.startIndex ∧ ∀ k, s.pc v = .claim k → c.chunks.length ≤ k

theorem Effect.startIndex_le (he : Effect c w s s') : s.startIndex ≤ s'.startIndex := by
  cases he with
  | quiet h => exact h.ge
  | hand _ _ h => exact h.ge
  | fetch _ h => rw [h]; exact Nat.le_succ _
  | adopt _ _ _ h => rw [h]; exact le_rfl

theorem Settled.step (hf : Frame w s s') (he : Effect c w s s') (h : Settled c s v) : Settled c s' v := by
  refine ⟨h.1.trans he.startIndex_le, fun k hk => ?_⟩
  by_cases hv : v = w
  · subst hv
    cases he with
    | quiet _ _ _ _ _ _ now => exact absurd hk (now k)
    | hand _ _ _ _ _ _ _ _ now => rw [now] at hk; cases hk
    | fetch _ heq =>
      have : k = s.startIndex := by simpa [heq, goto] using hk.symm
      exact this ▸ h.1
    | adopt _ _ _ heq => simp [heq, accept] at hk
  · exact h.2 k (hf.pc v hv ▸ hk)

/-- A worker keeps its chunk unless it adopts another. -/
theorem Effect.batchId (he : Effect c w s s') (h : ∀ k, s.pc w = .claim k → k < c.chunks.length → v ≠ w) :
    s'.batchId v = s.batchId v := by
  cases he with
  | quiet _ hb => rw [hb]
  | hand _ _ _ hb => rw [hb]
  | fetch _ heq => rw [heq]; rfl
  | adopt k hpc hk heq => simp [heq, State.accept, State.adopt, h k hpc hk]

theorem Spent.settled (h : Spent c s v) : Settled c s v := ⟨h.1, h.2.2⟩

theorem Spent.step (hf : Frame w s s') (he : Effect c w s s') (h : Spent c s v) : Spent c s' v := by
  have hset := h.settled.step hf he
  refine ⟨hset.1, ?_, hset.2⟩
  have hempty := h.2.1
  cases he with
  | quiet _ _ hu _ hcur =>
    rw [hu]
    rcases hcur v with h | h <;> omega
  | hand v' hunit _ _ hu _ hcur =>
    rw [hu, hcur, Function.update_apply]
    split
    · subst v; omega
    · exact hempty
  | fetch _ heq => rw [heq]; exact hempty
  | adopt k hpc hk heq =>
    have hv : v ≠ w := fun hv => absurd (h.2.2 k (hv ▸ hpc)) (by omega)
    simpa [heq, accept, adopt, hv] using hempty

/-- The worker has found no chunk left. -/
def Pc.stealing : Pc → Bool
  | .lastVictim | .lastTake | .look _ | .take _ | .finish => true
  | _ => false

/-- The others closer than this have been seen without units. -/
def Pc.looked (workers : ℕ) : Pc → ℕ
  | .look i | .take i => i
  | .finish => workers
  | _ => 0

/-- What was handed to `w` and not yet run. -/
def Pending (s : State c.workers) (w : Fin c.workers) : Prop :=
  match s.pc w with
  | .perform => ∃ u < 2 ^ 31, s.resvId w = toSize (toInt u) ∧
      s.handedTo w = s.ranBy w ++ [(w, s.batchId (s.target w), u)]
  | .run b => ∃ u < 2 ^ 31, s.resvId w = toSize (toInt u) ∧ s.handedTo w = s.ranBy w ++ [(w, b, u)]
  | _ => s.handedTo w = s.ranBy w

structure Worker (c : Config) (s : State c.workers) (w : Fin c.workers) : Prop where
  spent : (s.pc w).stealing ∨ (s.stealWorkerId w).isSome → Spent c s w
  victim : ∀ v, s.stealWorkerId w = some v → Settled c s v
  last : s.pc w = .lastVictim ∨ s.pc w = .lastTake → (s.stealWorkerId w).isSome
  looked : ∀ j, 1 ≤ j → j < (s.pc w).looked c.workers → Spent c s (State.other w j)
  bound : ∀ i, s.pc w = .take i → i < c.workers
  pending : Pending s w

theorem Worker.init (c : Config) (w : Fin c.workers) : Worker c (init c.workers) w where
  spent := by simp [State.init, Pc.stealing]
  victim := by simp [State.init]
  last := by simp [State.init]
  looked := by simp [State.init, Pc.looked]
  bound := by simp [State.init]
  pending := rfl

theorem Worker.other_step (hf : Frame w s s') (he : Effect c w s s') (hv : v ≠ w) (h : Worker c s v) :
    Worker c s' v := by
  have hpc := hf.pc v hv
  have hsteal := hf.steal v hv
  have htarget : s'.batchId (s'.target v) = s.batchId (s.target v) := by
    unfold target
    rw [hsteal]
    cases hs : s.stealWorkerId v with
    | none => exact he.batchId fun _ _ _ => hv
    | some v' => exact he.batchId fun k hpc hk (hw : v' = w) => absurd ((h.victim v' hs).2 k (hw ▸ hpc)) (by omega)
  refine ⟨?_, ?_, ?_, ?_, ?_, ?_⟩
  · rw [hpc, hsteal]
    exact fun hs => (h.spent hs).step hf he
  · rw [hsteal]
    exact fun v' hv' => (h.victim v' hv').step hf he
  · rw [hpc, hsteal]
    exact h.last
  · rw [hpc]
    exact fun j hj hlt => (h.looked j hj hlt).step hf he
  · rw [hpc]
    exact h.bound
  · have := h.pending
    unfold Pending at this ⊢
    rw [hpc, hf.resvId v hv, hf.handedTo v hv, hf.ranBy v hv, htarget]
    exact this

section

variable (s : State c.workers) (w : Fin c.workers)

/-- The fields a `goto` does not touch. -/
@[simp] theorem goto_pc (p : Pc) : (s.goto w p).pc w = p := by
  simp [goto]

@[simp] theorem goto_stealWorkerId (p : Pc) : (s.goto w p).stealWorkerId = s.stealWorkerId := rfl

@[simp] theorem accept_pc (k u : ℕ) : (s.accept w k u).pc w = .perform := by
  simp [accept]

@[simp] theorem accept_stealWorkerId (k u : ℕ) : (s.accept w k u).stealWorkerId = s.stealWorkerId := rfl

@[simp] theorem bump_stealWorkerId (v : Fin c.workers) : (s.bump v).stealWorkerId = s.stealWorkerId := rfl

@[simp] theorem adopt_stealWorkerId (k u : ℕ) : (s.adopt w k u).stealWorkerId = s.stealWorkerId := rfl

@[simp] theorem steal_stealWorkerId (v : Option (Fin c.workers)) : (s.steal w v).stealWorkerId w = v := by
  simp [steal]

@[simp] theorem unitRun_stealWorkerId (b : ℕ) (u : ℤ) : (s.unitRun w b u).stealWorkerId = s.stealWorkerId := rfl

end

theorem spent_of_unlocked (hidx : c.chunks.length ≤ s.startIndex) (hlock : ¬ s.locked v)
    (hempty : s.unitAmount v ≤ s.resvCursor v) : Spent c s v := by
  rw [locked_iff] at hlock
  exact ⟨hidx, hempty, fun k hk => absurd (.inr ⟨k, hk⟩) hlock⟩

theorem Worker.bound_next (h : Next c w s s') (i : ℕ) (hi : s'.pc w = .take i) : i < c.workers := by
  cases h with
  | @lookHas j _ hlt =>
    have : j = i := by simpa using hi
    exact this ▸ hlt
  | ownLost | noChunk => rcases afterOwn_eq s w with h | h <;> simp [h] at hi
  | exhausted | enter | ownUnit | ownEmpty | fetch | adopt | lastHas | lastEmpty | lastUnit | lastLost
  | lookEmpty | lookEnd | takeUnit | takeLost | finish | perform | run => simp at hi

theorem pending_accept (hnone : s.handedTo w = s.ranBy w) (hu : u < 2 ^ 31) (htarget : s.batchId (s.target w) = k) :
    Pending (s.accept w k u) w := by
  subst htarget
  unfold Pending
  rw [accept_pc]
  refine ⟨u, hu, by simp [accept], ?_⟩
  have : (s.accept w (s.batchId (s.target w)) u).handedTo w = s.handedTo w ++ [(w, s.batchId (s.target w), u)] := by
    simp [accept, handedTo]
  rw [this, hnone]
  rfl

theorem Worker.idle_handedTo (hw : Worker c s w) (h : s.pc w ≠ .perform) (h' : ∀ b, s.pc w ≠ .run b) :
    s.handedTo w = s.ranBy w := by
  have := hw.pending
  unfold Pending at this
  split at this <;> simp_all

theorem pending_goto {p : Pc} (hnone : s.handedTo w = s.ranBy w) (h : p ≠ .perform) (h' : ∀ b, p ≠ .run b) :
    Pending (s.goto w p) w := by
  unfold Pending
  rw [goto_pc]
  cases p <;> first | exact hnone | simp_all

section
variable (hw : Worker c s w) (h : Next c w s s')
include hw h

theorem Worker.victim_next (v : Fin c.workers) (hv : s'.stealWorkerId w = some v) : Settled c s v := by
  cases h with
  | @takeUnit i hpc hlock =>
    have hv : other w i = v := by simpa using hv
    have hspent := hw.spent (.inl (by simp [hpc, Pc.stealing]))
    rw [locked_iff, hv] at hlock
    exact ⟨hspent.1, fun k hk => absurd (.inr ⟨k, hk⟩) hlock⟩
  | lastEmpty => simp at hv
  | lastLost => simp at hv
  | exhausted | enter | ownUnit | ownLost | ownEmpty | fetch | adopt | noChunk | lastHas | lastUnit | lookHas
  | lookEmpty | lookEnd | takeLost | finish | perform | run => exact hw.victim v (by simpa using hv)

theorem Worker.last_next (hl : s'.pc w = .lastVictim ∨ s'.pc w = .lastTake) : (s'.stealWorkerId w).isSome := by
  have hafter : s.afterOwn w = .lastVictim ∨ s.afterOwn w = .lastTake → (s.stealWorkerId w).isSome := by
    unfold afterOwn
    split <;> simp_all
  cases h with
  | ownLost | noChunk => exact hafter (by simpa using hl)
  | lastHas hpc => exact hw.last (.inl hpc)
  | exhausted | enter | ownUnit | ownEmpty | fetch | adopt | lastEmpty | lastUnit | lastLost | lookHas
  | lookEmpty | lookEnd | takeUnit | takeLost | finish | perform | run => simp at hl

variable (hfit : c.UnitsFit) (hc : Chunks c s)
include hfit hc

theorem Worker.spent_next (hs : (s'.pc w).stealing ∨ (s'.stealWorkerId w).isSome) : Spent c s w := by
  cases h with
  | noChunk hpc hk =>
    have hlt := (hc.claimed w _ hpc).1
    exact ⟨by omega, hc.emptied w (by simp [locked_iff, hpc]), fun k' hk' => by rw [hpc] at hk'; cases hk'; exact hk⟩
  | lastHas hpc | lastEmpty hpc | lastUnit hpc | lastLost hpc | lookHas hpc | lookEmpty hpc | lookEnd hpc
  | takeUnit hpc | takeLost hpc | finish hpc => exact hw.spent (.inl (by simp [hpc, Pc.stealing]))
  | ownLost _ hunit hlost => exact absurd (hc.not_lost hfit (.inr hlost)) (by omega)
  | exhausted | enter | ownUnit | ownEmpty | fetch | adopt | perform | run =>
    exact hw.spent (.inr (by simpa [Pc.stealing] using hs))

theorem Worker.looked_next (j : ℕ) (hj : 1 ≤ j) (hlt : j < (s'.pc w).looked c.workers) :
    Spent c s (other w j) := by
  have hnext : ∀ i, (s.pc w).stealing → (s.pc w).looked c.workers = i → ¬ s.locked (other w i) →
      s.unitAmount (other w i) ≤ s.resvCursor (other w i) → j < i + 1 → Spent c s (other w j) := by
    intro i hpc hi hlock hempty hji
    rcases Nat.lt_succ_iff_lt_or_eq.mp hji with hji | rfl
    · exact hw.looked j hj (hi ▸ hji)
    · exact spent_of_unlocked (hw.spent (.inl hpc)).1 hlock hempty
  cases h with
  | lookHas hpc => exact hw.looked j hj (by simpa [hpc, Pc.looked] using hlt)
  | lookEmpty hpc _ hlock hempty =>
    exact hnext _ (by simp [hpc, Pc.stealing]) (by simp [hpc, Pc.looked]) hlock hempty (by simpa [Pc.looked] using hlt)
  | takeLost hpc hlock hlost =>
    exact hnext _ (by simp [hpc, Pc.stealing]) (by simp [hpc, Pc.looked]) hlock (hc.not_lost hfit hlost)
      (by simpa [Pc.looked] using hlt)
  | lookEnd hpc hi =>
    have hlt : j < c.workers := by simpa [Pc.looked] using hlt
    exact hw.looked j hj (by simp only [hpc, Pc.looked]; omega)
  | ownLost | noChunk =>
    rcases afterOwn_eq s w with h | h <;> simp only [goto_pc, h, Pc.looked] at hlt <;> omega
  | lastEmpty | lastLost =>
    simp only [goto_pc, Pc.looked] at hlt
    omega
  | exhausted | enter | ownUnit | ownEmpty | fetch | adopt | lastHas | lastUnit | takeUnit | finish | perform
  | run => simp [Pc.looked] at hlt

theorem Worker.pending_next : Pending s' w := by
  have hown : ¬ Spent c s w → s.target w = w := by
    intro hns
    unfold target
    cases hs : s.stealWorkerId w with
    | none => rfl
    | some v => exact absurd (hw.spent (.inr (by simp [hs]))) hns
  cases h with
  | ownUnit hpc hunit =>
    refine pending_accept (hw.idle_handedTo (by simp [hpc]) (by simp [hpc])) (hc.unit_fits hfit hunit) ?_
    have htarget := hown fun hs => absurd hs.2.1 (by omega)
    exact congrArg s.batchId htarget
  | @adopt k hpc hk =>
    refine pending_accept (hw.idle_handedTo (by simp [hpc]) (by simp [hpc])) (by decide) ?_
    have htarget := hown fun hs => absurd (hs.2.2 k hpc) (by omega)
    have : (s.adopt w k (c.units k)).target w = w := htarget
    rw [this]
    simp [adopt]
  | @lastUnit v hpc hv hunit =>
    refine pending_accept (hw.idle_handedTo (by simp [hpc]) (by simp [hpc])) (hc.unit_fits hfit hunit) ?_
    simp [target, hv, bump]
  | @takeUnit i hpc _ hunit =>
    refine pending_accept
      (hw.idle_handedTo (by simp [hpc]) (by simp [hpc])) (hc.unit_fits hfit hunit) ?_
    simp [target, bump, steal]
  | perform hpc =>
    have := hw.pending
    unfold Pending at this ⊢
    rw [hpc] at this
    rw [goto_pc]
    exact this
  | @run b hpc =>
    have := hw.pending
    unfold Pending at this
    rw [hpc] at this
    obtain ⟨u, hu, hid, heq⟩ := this
    have hint : toInt (s.resvId w) = u := by rw [hid, toInt_toSize_of_lt hu]
    refine pending_goto ?_ (by simp) (by simp)
    have : (s.unitRun w b (toInt (s.resvId w))).ranBy w = s.ranBy w ++ [(w, b, u)] := by
      simp [unitRun, ranBy, hint, Int.not_lt.mpr (Int.natCast_nonneg u)]
    rw [this]
    exact heq
  | ownLost hpc | noChunk hpc =>
    refine pending_goto (hw.idle_handedTo (by simp [hpc]) (by simp [hpc])) ?_ ?_ <;>
      rcases afterOwn_eq s w with h | h <;> simp [h]
  | exhausted hpc | enter hpc | ownEmpty hpc | fetch hpc | lastHas hpc | lastEmpty hpc | lastLost hpc
  | lookHas hpc | lookEmpty hpc | lookEnd hpc | takeLost hpc | finish hpc =>
    exact pending_goto (hw.idle_handedTo (by simp [hpc]) (by simp [hpc])) (by simp) (by simp)

theorem Worker.self_step : Worker c s' w := by
  have hf := h.frame
  have he := h.effect hfit hc
  exact
    { spent := fun hs => (hw.spent_next h hfit hc hs).step hf he
      victim := fun v hv => (hw.victim_next h v hv).step hf he
      last := hw.last_next h
      looked := fun j hj hlt => (hw.looked_next h hfit hc j hj hlt).step hf he
      bound := Worker.bound_next h
      pending := hw.pending_next h hfit hc }

end

/-! ## Every interleaving -/

def AllHanded (c : Config) (s : State c.workers) : Prop :=
  ∀ k < c.chunks.length, ∀ u < c.units k, s.Handed k u

theorem exists_other (w v : Fin c.workers) (h : v ≠ w) : ∃ j, 1 ≤ j ∧ j < c.workers ∧ other w j = v := by
  rcases Nat.lt_or_ge w.val v.val with hlt | hge
  · refine ⟨v.val - w.val, by omega, by omega, Fin.ext ?_⟩
    simp only [other]
    rw [Nat.add_sub_cancel' hlt.le, Nat.mod_eq_of_lt v.isLt]
  · refine ⟨v.val + c.workers - w.val, by omega, by omega, Fin.ext ?_⟩
    simp only [other]
    rw [show w.val + (v.val + c.workers - w.val) = v.val + c.workers by omega, Nat.add_mod_right,
      Nat.mod_eq_of_lt v.isLt]

theorem Chunks.allHanded (hc : Chunks c s) (w : Fin c.workers) (h : ∀ v, Spent c s v) : AllHanded c s := by
  intro k hk u hu
  rcases hc.covered k hk (by have := (h w).1; omega) with ⟨v, hv⟩ | ⟨v, hv, rfl⟩ | hall
  · exact absurd ((h v).2.2 k hv) (by omega)
  · exact hc.handed_of_emptied hv (h v).2.1 u hu
  · exact hall u hu

theorem Effect.handed_mono (he : Effect c w s s') (h : s.Handed k u) : s'.Handed k u := by
  cases he with
  | quiet _ _ _ hh => simpa only [State.Handed, hh] using h
  | hand _ _ _ _ _ hh => exact (handed_append hh).mpr (.inl h)
  | fetch _ heq => rw [heq]; exact h
  | adopt k _ _ heq => exact (handed_append (by rw [heq]; rfl)).mpr (.inl h)

structure Inv (c : Config) (s : State c.workers) : Prop where
  chunks : Chunks c s
  worker : ∀ w, Worker c s w
  exhausted : s.workExhausted ∨ (∃ w, s.pc w = .done) → AllHanded c s

theorem Inv.allHanded_next (hi : Inv c s) (h : Next c w s s') (hs : s'.workExhausted ∨ ∃ v, s'.pc v = .done) :
    AllHanded c s := by
  have hother : ∀ v, v ≠ w → s'.pc v = .done → AllHanded c s :=
    fun v hv hdone => hi.exhausted (.inr ⟨v, by rw [← h.frame.pc v hv]; exact hdone⟩)
  have hquiet : s'.workExhausted = s.workExhausted → s'.pc w ≠ .done → AllHanded c s := by
    intro hflag hpc
    rcases hs with hs | ⟨v, hv⟩
    · exact hi.exhausted (.inl (hflag ▸ hs))
    · by_cases hvw : v = w
      · exact absurd (hvw ▸ hv) hpc
      · exact hother v hvw hv
  cases h with
  | exhausted _ hflag => exact hi.exhausted (.inl hflag)
  | finish hpc =>
    refine hi.chunks.allHanded w fun v => ?_
    by_cases hvw : v = w
    · subst hvw
      exact (hi.worker v).spent (.inl (by simp [hpc, Pc.stealing]))
    · obtain ⟨j, hj, hlt, rfl⟩ := exists_other w v hvw
      exact (hi.worker w).looked j hj (by simpa [hpc, Pc.looked] using hlt)
  | ownLost | noChunk => exact hquiet rfl (by rcases afterOwn_eq s w with h | h <;> simp [h])
  | enter | ownUnit | ownEmpty | fetch | adopt | lastHas | lastEmpty | lastUnit | lastLost | lookHas | lookEmpty
  | lookEnd | takeUnit | takeLost | perform | run => exact hquiet rfl (by simp)

theorem Inv.next (hfit : c.UnitsFit) (hi : Inv c s) (h : Next c w s s') : Inv c s' := by
  have hf := h.frame
  have he := h.effect hfit hi.chunks
  refine ⟨hi.chunks.step hf he, fun v => ?_, fun hs k hk u hu => he.handed_mono (hi.allHanded_next h hs k hk u hu)⟩
  by_cases hv : v = w
  · subst hv
    exact (hi.worker v).self_step h hfit hi.chunks
  · exact (hi.worker v).other_step hf he hv

theorem Reachable.inv (hfit : c.UnitsFit) (h : Reachable c s) : Inv c s := by
  induction h with
  | init => exact ⟨Chunks.init c, Worker.init c, by simp [State.init]⟩
  | step w _ hstep ih => exact ih.next hfit (next_of_step hstep)

end GengoDB.Steal
