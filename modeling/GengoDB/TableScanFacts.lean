/-
What the scan tasks deliver.

`scan_delivers` says for which tables and restrictions every row that passes
comes to the callback once. The sequential task needs chunks of at most
`maxBatchSize` rows: its loop counts in steps of that size, but each round
takes all the rows that are left. Both tasks inherit from the first not-null
filter that ranges which do not end where its bytewise loop ends are read too
far.
-/
import GengoDB.TableScan
import GengoDB.WorkStealingRuns

namespace GengoDB.Scan

open List Nat

/-! ## Specification -/

/-- A row of a chunk satisfies all filters. -/
def Chunk.passes (chunk : Chunk) (r : Restrictions) (row : ℕ) : Bool :=
  r.filters.all fun f => f.1.satisfied (chunk.getArrayView f.2) row

/-- The rows of a table that pass, as chunk and row. -/
def passing (batches : List Chunk) (r : Restrictions) : List (ℕ × ℕ) :=
  batches.zipIdx.flatMap fun batch => ((List.range batch.1.numRows).filter (batch.1.passes r)).map (batch.2, ·)

def BatchView.rowIds (view : BatchView) : List (ℕ × ℕ) :=
  view.selectionVector.map fun pos => (view.chunkId, view.offset + pos)

/-- A batch no longer than a batch may be, with positions inside. -/
structure BatchView.WellFormed (view : BatchView) : Prop where
  rows_le : view.rows ≤ maxBatchSize
  selected_le : view.selectionVector.length ≤ view.rows
  inside : ∀ pos ∈ view.selectionVector, pos < view.rows

structure Delivers (batches : List Chunk) (r : Restrictions) (views : List BatchView) : Prop where
  once : (views.flatMap BatchView.rowIds).Perm (passing batches r)
  wellFormed : ∀ view ∈ views, view.WellFormed

/-! ## One range -/

/-- The first not-null filter does not read behind the range. -/
def Cut.aligned (cut : Cut) (r : Restrictions) : Bool :=
  match r.filters with
  | (.firstNotNull, colId) :: _ =>
    let view := cut.chunk.getArrayView colId
    view.nullCount = 0 ∨ cut.length < 8 ∨
      cut.length / 8 * 8 + (8 - (cut.offset + view.offset) % 8) % 8 ≤ cut.length
  | _ => true

/-- A range that is filtered as it should be. -/
structure Cut.Sound (cut : Cut) (r : Restrictions) : Prop where
  fits : cut.length ≤ maxBatchSize
  inside : cut.offset + cut.length ≤ cut.chunk.numRows
  aligned : cut.aligned r

def Cut.rowIds (cut : Cut) (r : Restrictions) : List (ℕ × ℕ) :=
  ((List.range' cut.offset cut.length).filter (cut.chunk.passes r)).map (cut.chunkId, ·)

variable {r : Restrictions} {cut : Cut} {batches : List Chunk}

theorem Cut.Sound.applyFilters (h : cut.Sound r) : r.applyFilters cut.offset cut.length cut.chunk.getArrayView =
      (range cut.length).filter fun pos => cut.chunk.passes r (pos + cut.offset) := by
  let b : Batch := ⟨cut.offset, cut.length, cut.chunk.getArrayView, h.fits,
    fun colId => h.inside.trans (cut.chunk.covers colId)⟩
  have hoverrun : r.overrun b = [] := by
    have halign := h.aligned
    unfold Restrictions.overrun
    unfold Cut.aligned at halign
    split
    · next colId fs hfs =>
      simp only [hfs, decide_eq_true_eq] at halign
      rcases halign with hnull | hshort | hle
      · exact if_pos (.inl hnull)
      · exact if_pos (.inr hshort)
      · dsimp only
        split
        · rfl
        · rw [Nat.sub_eq_zero_of_le hle, range'_zero]
    · rfl
  have heq := Restrictions.applyFilters_eq r b
  rw [hoverrun, filter_nil, map_nil, append_nil] at heq
  exact heq

theorem Cut.Sound.deliver (h : cut.Sound r) :
    ∃ views, deliver r cut = some views ∧ views.flatMap BatchView.rowIds = cut.rowIds r ∧
      ∀ view ∈ views, view.WellFormed := by
  refine ⟨_, if_pos h.fits, ?_, ?_⟩
  all_goals
    rw [h.applyFilters]
    generalize hsel : (range cut.length).filter (fun pos => cut.chunk.passes r (pos + cut.offset)) = sel
  · have hids : cut.rowIds r = sel.map fun pos => (cut.chunkId, cut.offset + pos) := by
      rw [← hsel, Cut.rowIds, range'_eq_map_range, filter_map, map_map]
      congr 1
      exact filter_congr fun pos _ => by rw [Function.comp_apply, add_comm]
    rw [hids]
    cases sel with
    | nil => rfl
    | cons p ps => simp [BatchView.rowIds]
  · intro view hview
    split at hview
    · rw [mem_singleton] at hview
      subst hview
      refine ⟨h.fits, ?_, fun pos hpos => ?_⟩
      · rw [← hsel]
        exact (length_filter_le _ _).trans (length_range).le
      · rw [← hsel] at hpos
        exact mem_range.mp (mem_of_mem_filter hpos)
    · cases hview

theorem deliverAll_sound {cuts : List Cut} (h : ∀ cut ∈ cuts, cut.Sound r) : ∃ views, deliverAll r cuts = some views ∧
      views.flatMap BatchView.rowIds = cuts.flatMap (fun cut => cut.rowIds r) ∧ ∀ view ∈ views, view.WellFormed := by
  induction cuts with
  | nil => exact ⟨[], rfl, rfl, by simp⟩
  | cons cut cuts ih =>
    obtain ⟨views, hviews, hids, hwf⟩ := (h cut mem_cons_self).deliver
    obtain ⟨rest, hrest, hids', hwf'⟩ := ih fun cut hcut => h cut (mem_cons_of_mem _ hcut)
    unfold deliverAll at hrest ⊢
    obtain ⟨lists, hlists, rfl⟩ := Option.map_eq_some_iff.mp hrest
    refine ⟨views ++ lists.flatten, by simp [hviews, hlists], ?_, fun view hview => ?_⟩
    · rw [flatMap_append, hids, hids', flatMap_cons]
    · exact (mem_append.mp hview).elim (hwf view) (hwf' view)

/-! ## The sequential task -/

variable {chunk : Chunk}

theorem chunkCuts_of_le (chunkId : ℕ) (h : chunk.numRows ≤ maxBatchSize) :
    chunkCuts chunk chunkId = if chunk.numRows = 0 then [] else [⟨chunkId, chunk, 0, chunk.numRows⟩] := by
  have hpos : 0 < maxBatchSize := by decide
  rw [chunkCuts, Loop.count_lt hpos (by omega)]
  split
  · next hzero => rw [hzero]; rfl
  · rw [Loop.rounds_of_lt (by omega) hpos, Loop.rounds_of_le (by omega) hpos]
    simp

theorem sequentialCuts_rowIds (h : ∀ chunk ∈ batches, chunk.numRows ≤ maxBatchSize) :
    (sequentialCuts batches).flatMap (fun cut => cut.rowIds r) = passing batches r := by
  rw [sequentialCuts, flatMap_assoc]
  refine flatMap_congr fun batch hmem => ?_
  rw [chunkCuts_of_le batch.2 (h batch.1 (fst_mem_of_mem_zipIdx hmem)), range_eq_range']
  split
  · next hzero => rw [hzero]; rfl
  · rw [flatMap_singleton]
    rfl

theorem sequentialCuts_inside (h : ∀ chunk ∈ batches, chunk.numRows ≤ maxBatchSize) (hmem : cut ∈ sequentialCuts batches) :
    cut.length ≤ maxBatchSize ∧ cut.offset + cut.length ≤ cut.chunk.numRows := by
  obtain ⟨batch, hbatch, hmem⟩ := mem_flatMap.mp hmem
  have hle := h batch.1 (fst_mem_of_mem_zipIdx hbatch)
  rw [chunkCuts_of_le batch.2 hle] at hmem
  split at hmem
  · cases hmem
  · rw [mem_singleton] at hmem
    subst hmem
    exact ⟨hle, (zero_add _).le⟩

/-! ## The parallel task -/

variable {numWorkers : ℕ} {c : Steal.Config} {k u : ℕ} {s : Steal.State (scanConfig batches numWorkers).workers}

theorem unitRun_length (splitSize : ℕ) (chunk : Chunk) (batchId unitId : ℕ) :
    (unitRun splitSize chunk batchId unitId).length = min splitSize (chunk.numRows - splitSize * unitId) := by
  simp only [unitRun]
  omega

theorem units_start (hu : u < max 1 (c.units k)) : c.splitSize * u ≤ c.chunks.getD k 0 := by
  have hpos := c.splitSize_pos
  rcases lt_or_ge u (c.units k) with hlt | hge
  · have hmul := (le_div_iff_mul_le hpos).mp (succ_le_of_lt hlt)
    rw [succ_mul, mul_comm] at hmul
    omega
  · obtain rfl : u = 0 := by omega
    simp

theorem scanConfig_rows (hk : batches[k]? = some chunk) :
    (scanConfig batches numWorkers).chunks.getD k 0 = chunk.numRows := by
  simp [scanConfig, hk]

theorem unitRun_sound (hk : batches[k]? = some chunk) (hu : u < max 1 ((scanConfig batches numWorkers).units k))
    (halign : (unitRun (scanConfig batches numWorkers).splitSize chunk k u).aligned r) :
    (unitRun (scanConfig batches numWorkers).splitSize chunk k u).Sound r := by
  have hlen := unitRun_length (scanConfig batches numWorkers).splitSize chunk k u
  have hstart := units_start hu
  rw [scanConfig_rows hk] at hstart
  refine ⟨?_, ?_, halign⟩
  · rw [hlen]
    exact (min_le_left _ _).trans (splitSize_le _ _)
  · simp only [unitRun]
    omega

/-- The units of a chunk together are the chunk. -/
theorem units_rowIds (batches : List Chunk) (numWorkers k : ℕ) (chunk : Chunk) (hk : batches[k]? = some chunk) :
    (range ((scanConfig batches numWorkers).units k)).flatMap
        (fun u => (unitRun (scanConfig batches numWorkers).splitSize chunk k u).rowIds r) =
      ((range chunk.numRows).filter (chunk.passes r)).map (k, ·) := by
  have hpos := (scanConfig batches numWorkers).splitSize_pos
  unfold Steal.Config.units
  rw [scanConfig_rows hk]
  generalize (scanConfig batches numWorkers).splitSize = split at hpos
  have hcover : chunk.numRows ≤ split * ((chunk.numRows + split - 1) / split) := by
    have := div_add_mod (chunk.numRows + split - 1) split
    have := mod_lt (chunk.numRows + split - 1) hpos
    omega
  calc (range ((chunk.numRows + split - 1) / split)).flatMap (fun u => (unitRun split chunk k u).rowIds r)
      = (((range ((chunk.numRows + split - 1) / split)).flatMap
          fun u => range' (split * u) (min split (chunk.numRows - split * u))).filter (chunk.passes r)).map (k, ·) := by
        rw [filter_flatMap, map_flatMap]
        refine flatMap_congr fun u _ => ?_
        rw [Cut.rowIds, unitRun_length]
        rfl
    _ = ((range chunk.numRows).filter (chunk.passes r)).map (k, ·) := by
        rw [Loop.flatMap_range_blocks, min_eq_left hcover]

/-- The row numbers of one unit. -/
def unitRowIds (batches : List Chunk) (numWorkers : ℕ) (r : Restrictions) (ku : ℕ × ℕ) : List (ℕ × ℕ) :=
  (batches[ku.1]?.map fun chunk => unitRun (scanConfig batches numWorkers).splitSize chunk ku.1 ku.2).toList.flatMap
    fun cut => cut.rowIds r

theorem parallelCuts_rowIds (s : Steal.State (scanConfig batches numWorkers).workers) :
    (parallelCuts batches numWorkers s).flatMap (fun cut => cut.rowIds r) =
      (s.ran.map Prod.snd).flatMap (unitRowIds batches numWorkers r) := by
  rw [parallelCuts, flatMap_assoc, flatMap_map]
  rfl

theorem rows_le_of_units_le (hk : batches[k]? = some chunk) (hu : (scanConfig batches numWorkers).units k ≤ u) :
    chunk.numRows ≤ (scanConfig batches numWorkers).splitSize * u := by
  have hpos := (scanConfig batches numWorkers).splitSize_pos
  rw [Steal.Config.units, scanConfig_rows hk] at hu
  have := (div_lt_iff_lt_mul hpos).mp (lt_succ_of_le hu)
  rw [succ_mul, mul_comm] at this
  omega

/-- The unit 0 of a chunk without rows, and any other number that is no unit. -/
theorem unitRowIds_eq_nil (hu : (scanConfig batches numWorkers).units k ≤ u) :
    unitRowIds batches numWorkers r (k, u) = [] := by
  unfold unitRowIds
  cases hk : batches[k]? with
  | none => rfl
  | some chunk => simp [Cut.rowIds, unitRun_length, Nat.sub_eq_zero_of_le (rows_le_of_units_le hk hu)]

theorem flatMap_filter_of_nil {α β : Type} (p : α → Bool) (f : α → List β) (h : ∀ a, p a = false → f a = []) (l : List α) :
    (l.filter p).flatMap f = l.flatMap f := by
  induction l with
  | nil => rfl
  | cons a l ih =>
    cases hp : p a with
    | true => rw [filter_cons_of_pos hp, flatMap_cons, flatMap_cons, ih]
    | false => rw [filter_cons_of_neg (by simp [hp]), flatMap_cons, h a hp, ih, nil_append]

theorem flatMap_zipIdx {α β : Type} (f : α × ℕ → List β) (l : List α) :
    l.zipIdx.flatMap f = (range l.length).flatMap fun k => (l[k]?.map fun a => f (a, k)).getD [] := by
  induction l using reverseRecOn with
  | nil => rfl
  | append_singleton l a ih =>
    rw [zipIdx_append, flatMap_append, ih, length_append, length_singleton, range_succ, flatMap_append]
    congr 1
    · refine flatMap_congr fun k hk => ?_
      rw [getElem?_append_left (mem_range.mp hk)]
    · simp

/-- All units of all chunks. -/
def unitsOf (c : Steal.Config) : List (ℕ × ℕ) :=
  (List.range c.chunks.length).flatMap fun k => (List.range (c.units k)).map (k, ·)

theorem mem_unitsOf : (k, u) ∈ unitsOf c ↔ k < c.chunks.length ∧ u < c.units k := by
  simp [unitsOf]

theorem nodup_unitsOf (c : Steal.Config) : (unitsOf c).Nodup := by
  refine nodup_flatMap.mpr ⟨fun k _ => nodup_range.map fun u u' h => (Prod.mk.inj h).2, ?_⟩
  refine nodup_range.imp fun {k k'} hne => ?_
  simp only [disjoint_left, mem_map, not_exists, not_and]
  rintro ⟨_, _⟩ ⟨u, -, heq⟩ u' - heq'
  rw [← heq] at heq'
  exact hne (Prod.mk.inj heq').1.symm

theorem unitsOf_rowIds (batches : List Chunk) (numWorkers : ℕ) (r : Restrictions) :
    (unitsOf (scanConfig batches numWorkers)).flatMap (unitRowIds batches numWorkers r) = passing batches r := by
  rw [passing, flatMap_zipIdx, unitsOf, flatMap_assoc]
  have hlen : (scanConfig batches numWorkers).chunks.length = batches.length := by simp [scanConfig]
  rw [hlen]
  refine flatMap_congr fun k hk => ?_
  obtain ⟨chunk, hchunk⟩ : ∃ chunk, batches[k]? = some chunk := ⟨_, getElem?_eq_getElem (mem_range.mp hk)⟩
  rw [hchunk, flatMap_map, Option.map_some]
  rw [← units_rowIds batches numWorkers k chunk hchunk]
  simp [unitRowIds, hchunk]

theorem ran_perm_handed {W : ℕ} {s : Steal.State W} (h : ∀ w, s.ranBy w = s.handedTo w) : s.ran.Perm s.handed := by
  refine perm_iff_count.mpr fun a => ?_
  have hw := congrArg (count a) (h a.1)
  rwa [Steal.State.ranBy, Steal.State.handedTo, count_filter (by simp), count_filter (by simp)] at hw

/-- When the workers are done, what they ran are the passing rows. -/
theorem parallel_perm (hinv : Steal.Inv (scanConfig batches numWorkers) s) (w : Fin numWorkers)
    (hdone : s.pc w = .done) (hran : ∀ w, s.ranBy w = s.handedTo w) :
    ((parallelCuts batches numWorkers s).flatMap fun cut => cut.rowIds r).Perm (passing batches r) := by
  have hall := hinv.exhausted (.inr ⟨w, hdone⟩)
  have hunits : ((s.handed.map Prod.snd).filter fun ku => ku.2 < (scanConfig batches numWorkers).units ku.1).Perm
      (unitsOf (scanConfig batches numWorkers)) := by
    refine (perm_ext_iff_of_nodup (hinv.chunks.nodup.filter _) (nodup_unitsOf _)).mpr fun ⟨k, u⟩ => ?_
    simp only [mem_filter, mem_map, Prod.exists, exists_eq_right, decide_eq_true_eq, mem_unitsOf]
    constructor
    · rintro ⟨⟨v, hv⟩, hu⟩
      exact ⟨(hinv.chunks.bound k u ⟨v, hv⟩).1, hu⟩
    · rintro ⟨hk, hu⟩
      exact ⟨hall k hk u hu, hu⟩
  rw [parallelCuts_rowIds, ← unitsOf_rowIds batches numWorkers r]
  refine (((ran_perm_handed hran).map Prod.snd).flatMap_right _).trans ?_
  rw [← flatMap_filter_of_nil (fun ku => ku.2 < (scanConfig batches numWorkers).units ku.1)
    (unitRowIds batches numWorkers r) fun ku h => unitRowIds_eq_nil (by simpa using h)]
  exact hunits.flatMap_right _

/-! ## Both tasks -/

/-- The ranges a task is going to filter. -/
def taskCuts (parallel : Bool) (batches : List Chunk) (numWorkers : ℕ) : List Cut :=
  if parallel then
    batches.zipIdx.flatMap fun batch => (List.range ((scanConfig batches numWorkers).units batch.2)).map
      (unitRun (scanConfig batches numWorkers).splitSize batch.1 batch.2)
  else sequentialCuts batches

/-- The scan comes to its end and has delivered the rows that pass; the
parallel one in every interleaving. -/
def ScanDelivers (parallel : Bool) (batches : List Chunk) (r : Restrictions) (numWorkers : ℕ) : Prop :=
  if parallel then
    (∀ s, Steal.Reachable (scanConfig batches numWorkers) s → (∀ w, Steal.step _ w s = none) →
      ∃ views, deliverAll r (parallelCuts batches numWorkers s) = some views ∧ Delivers batches r views) ∧
    ¬ ∃ run : ℕ → Steal.State (scanConfig batches numWorkers).workers, run 0 = Steal.State.init _ ∧
      ∀ i, ∃ w, Steal.step _ w (run i) = some (run (i + 1))
  else ∃ views, deliverAll r (sequentialCuts batches) = some views ∧ Delivers batches r views

structure Safe (parallel : Bool) (batches : List Chunk) (r : Restrictions) (numWorkers : ℕ) : Prop where
  workers : 0 < numWorkers
  small : parallel = false → ∀ chunk ∈ batches, chunk.numRows ≤ maxBatchSize
  units : parallel = true → (scanConfig batches numWorkers).UnitsFit
  aligned : ∀ cut ∈ taskCuts parallel batches numWorkers, cut.aligned r

theorem sequential_delivers (h : Safe false batches r numWorkers) : ScanDelivers false batches r numWorkers := by
  have hsmall := h.small rfl
  have hsound : ∀ cut ∈ sequentialCuts batches, cut.Sound r := fun cut hcut =>
    have hinside := sequentialCuts_inside hsmall hcut
    ⟨hinside.1, hinside.2, h.aligned cut hcut⟩
  obtain ⟨views, hviews, hids, hwf⟩ := deliverAll_sound hsound
  exact ⟨views, hviews, List.Perm.of_eq (hids.trans (sequentialCuts_rowIds hsmall)), hwf⟩

theorem aligned_of_short (h : cut.length < 8) : cut.aligned r := by
  unfold Cut.aligned
  split
  · simp [h]
  · rfl

theorem parallelCuts_sound (h : Safe true batches r numWorkers) (hinv : Steal.Inv (scanConfig batches numWorkers) s)
    (hran : ∀ w, s.ranBy w = s.handedTo w) : ∀ cut ∈ parallelCuts batches numWorkers s, cut.Sound r := by
  intro cut hcut
  simp only [parallelCuts, mem_flatMap, Option.mem_toList, Option.map_eq_some_iff] at hcut
  obtain ⟨⟨w, k, u⟩, hmem, chunk, hk, rfl⟩ := hcut
  obtain ⟨-, -, hu⟩ := hinv.chunks.bound k u ⟨w, (ran_perm_handed hran).mem_iff.mp hmem⟩
  refine unitRun_sound hk hu ?_
  rcases lt_or_ge u ((scanConfig batches numWorkers).units k) with hlt | hge
  · refine h.aligned _ ?_
    have hzip : (chunk, k) ∈ batches.zipIdx := mem_zipIdx_iff_getElem?.mpr hk
    exact mem_flatMap.mpr ⟨(chunk, k), hzip, mem_map.mpr ⟨u, mem_range.mpr hlt, rfl⟩⟩
  · refine aligned_of_short ?_
    rw [unitRun_length, Nat.sub_eq_zero_of_le (rows_le_of_units_le hk hge)]
    omega

theorem parallel_delivers (h : Safe true batches r numWorkers) : ScanDelivers true batches r numWorkers := by
  have hcorrect := Steal.correct_of_unitsFit (h.units rfl)
  refine ⟨fun s hs hstuck => ?_, hcorrect.ends⟩
  have hdone : ∀ w, s.pc w = .done := by
    by_contra hnot
    obtain ⟨w, s', hstep⟩ := hcorrect.progress s hs (not_forall.mp hnot)
    rw [hstuck w] at hstep
    cases hstep
  have hinv := hs.inv (h.units rfl)
  have hran : ∀ w, s.ranBy w = s.handedTo w := fun w => hcorrect.runs s hs w (by simp [hdone]) (by simp [hdone])
  obtain ⟨views, hviews, hids, hwf⟩ := deliverAll_sound (parallelCuts_sound h hinv hran)
  refine ⟨views, hviews, ?_, hwf⟩
  rw [hids]
  exact parallel_perm hinv ⟨0, h.workers⟩ (hdone _) hran

/-- **Every row that passes is delivered once, in well-formed batches**, if
the chunks of a sequential scan are no longer than a batch may be, the chunks
of a parallel one have no more units than an `int` can number, and the first
not-null filter does not read behind a range. -/
theorem scan_delivers (parallel : Bool) (batches : List Chunk) (r : Restrictions) (numWorkers : ℕ)
    (h : Safe parallel batches r numWorkers) : ScanDelivers parallel batches r numWorkers := by
  cases parallel with
  | false => exact sequential_delivers h
  | true => exact parallel_delivers h

/-- A column without nulls. -/
def plainView (length : ℕ) : ArrayView where
  length := length
  nullCount := 0
  offset := 0
  validData := fun _ => 255#8
  data := fun i => i
  offsets := fun _ => 0
  bytes := fun _ => 0
  noNulls := fun _ i _ => by
    have hbit : ∀ k < 8, (255#8 >>> k) &&& 1#8 != 0#8 := by decide
    exact hbit ((i + 0) % 8) (Nat.mod_lt _ (by decide))

def plainChunk (numRows : ℕ) : Chunk := ⟨numRows, fun _ => plainView numRows, fun _ => le_rfl⟩

/-- Two chunks, one without rows, and a restriction, in both tasks. -/
theorem scan_delivers_small :
    let r : Restrictions := ⟨[(.firstNotNull, 0), (.simpleType .lt 2, 0)], by simp⟩
    ScanDelivers false [plainChunk 3, plainChunk 0] r 2 ∧ ScanDelivers true [plainChunk 3, plainChunk 0] r 2 :=
  ⟨scan_delivers false _ _ 2 ⟨by decide, by decide, by decide, by decide⟩,
    scan_delivers true _ _ 2 ⟨by decide, by decide, by decide, by decide⟩⟩

/-- A sequential scan takes the 65537 rows of a chunk at once, and then the
last one again. -/
theorem sequential_large_chunk :
    (sequentialCuts [plainChunk 65537]).map (fun cut => (cut.offset, cut.length)) = [(0, 65537), (65536, 1)] ∧
      ¬ ScanDelivers false [plainChunk 65537] ⟨[], by simp⟩ 1 := by
  have hcuts : sequentialCuts [plainChunk 65537] =
      [⟨0, plainChunk 65537, 0, 65537⟩, ⟨0, plainChunk 65537, 65536, 1⟩] := rfl
  refine ⟨by rw [hcuts]; rfl, ?_⟩
  rintro ⟨views, hviews, -⟩
  cases hviews

end GengoDB.Scan
