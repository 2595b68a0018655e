/-
What the filters of a scan select (`Restrictions::applyFilters`).

Every kernel but the first not-null filter keeps of its selection vector
exactly the positions whose row passes, however far it is unrolled. The first
not-null filter reads whole bytes once it is aligned, and it stops at a
multiple of eight counted from position 0, not from the position at which it
became aligned: if the bitmap does not start at a byte boundary it can read up
to seven positions too far. `applyFilters_eq_selected_iff` says exactly when
this shows.
-/
import GengoDB.Restrictions

namespace GengoDB.Scan

open List Loop

/-! ## Specification -/

/-- A row of a column satisfies a filter. -/
def Filter.satisfied (f : Filter) (view : ArrayView) (row : ℕ) : Bool :=
  match f with
  | .firstNotNull | .notNull => view.isValid row
  | .simpleType cmp v => cmp.apply (view.value row) v
  | .simpleTypeIn values => values.contains (view.value row)
  | .varLen32 cmp v => cmp.apply (view.text row) v
  | .varLen32In values => values.contains (view.text row)

/-- A batch of a chunk: a range of rows that every column has, no longer than
a selection vector. -/
structure Batch where
  offset : ℕ
  length : ℕ
  getArrayView : ℕ → ArrayView
  fits : length ≤ maxBatchSize
  inside : ∀ colId, offset + length ≤ (getArrayView colId).length

namespace Restrictions

variable (r : Restrictions) (b : Batch)

/-- The positions of the batch whose rows satisfy all filters, in order. -/
def selected : List ℕ :=
  (List.range b.length).filter fun i => r.filters.all fun f => f.1.satisfied (b.getArrayView f.2) (i + b.offset)

/-- The positions behind the batch that the first not-null filter reads. -/
def overrun : List ℕ :=
  match r.filters with
  | (.firstNotNull, colId) :: _ =>
    let view := b.getArrayView colId
    if view.nullCount = 0 ∨ b.length < 8 then []
    else List.range' b.length (b.length / 8 * 8 + (8 - (b.offset + view.offset) % 8) % 8 - b.length)
  | _ => []

end Restrictions

/-- A kernel lets a position through: the not-null filters do not look at a
column without nulls. -/
def Filter.passes (f : Filter) (view : ArrayView) (offset pos : ℕ) : Bool :=
  (f == .notNull && view.nullCount == 0) || f.keeps view offset pos

/-- A position behind the batch gets past all filters: the later ones see it
as it is stored. -/
def Restrictions.survives (r : Restrictions) (b : Batch) (p : ℕ) : Bool :=
  match r.filters with
  | [] => true
  | (f, colId) :: fs =>
    f.keeps (b.getArrayView colId) b.offset p &&
      fs.all fun g => g.1.passes (b.getArrayView g.2) b.offset (toU16 p)

/-! ## Kernels -/

section Kernels

variable {keep : ℕ → Bool} {sel : List ℕ} {validData : ℕ → BitVec 8} {base len : ℕ}

theorem toU16_of_lt {i : ℕ} (h : i < 65536) : toU16 i = i := Nat.mod_eq_of_lt h

theorem toU16_lt (i : ℕ) : toU16 i < 65536 := Nat.mod_lt i (by decide)

theorem flatMap_write (l : List ℕ) (keep : ℕ → Bool) :
    l.flatMap (fun i => write i (keep i)) = (l.filter keep).map toU16 := by
  induction l with
  | nil => rfl
  | cons i l ih =>
    rw [flatMap_cons, ih, filter_cons, write]
    split <;> simp

theorem map_toU16 (h : ∀ i ∈ sel, i < 65536) : sel.map toU16 = sel :=
  (map_congr_left fun i hi => toU16_of_lt (h i hi)).trans (map_id' sel)

theorem range_flatMap_getD (f : ℕ → List ℕ) (sel : List ℕ) :
    (range sel.length).flatMap (fun i => f (sel.getD i 0)) = sel.flatMap f := by
  have hsel : (range sel.length).map (fun i => sel.getD i 0) = sel := by
    refine ext_getElem (by simp) fun i hi hi' => ?_
    simp [getElem?_eq_getElem hi']
  rw [← flatMap_map, hsel]

theorem unrolled_eq {width : ℕ} (hw : 0 < width) (h : ∀ i ∈ sel, i < 65536) :
    unrolled width keep sel = sel.filter keep := by
  have hloop := count_unrolled (fun i => write (sel.getD i 0) (keep (sel.getD i 0))) hw sel.length
  refine hloop.trans ?_
  rw [range_flatMap_getD fun i => write i (keep i), flatMap_write]
  exact map_toU16 fun i hi => h i (mem_of_mem_filter hi)

theorem plain_eq (h : ∀ i ∈ sel, i < 65536) : plain keep sel = sel.filter keep := by
  rw [plain, count_lt Nat.one_pos (by omega), rounds_one, ← range_eq_range']
  show (range sel.length).flatMap _ = _
  rw [range_flatMap_getD fun i => write i (keep i), flatMap_write]
  exact map_toU16 fun i hi => h i (mem_of_mem_filter hi)

/-- The bits of a byte by mask and by shift. -/
theorem mask_eq_shift : ∀ byte : BitVec 8, ∀ k < 8, (byte >>> k &&& 1#8 != 0#8) = (byte &&& 1#8 <<< k != 0#8) := by
  decide

/-- From a byte boundary on, a byte holds the bits of eight positions. -/
theorem writeByte_eq {i : ℕ} (h : (i + base) % 8 = 0) : writeByte (validData ((i + base) / 8)) i =
      (range' i 8).flatMap fun p => write p (validBit validData (p + base)) := by
  have hbit k (hk : k < 8) :
      validBit validData (i + k + base) = (validData ((i + base) / 8) &&& 1#8 <<< k != 0#8) := by
    rw [validBit, show (i + k + base) / 8 = (i + base) / 8 by omega, show (i + k + base) % 8 = k by omega,
      mask_eq_shift _ k hk]
  have hfirst := hbit 0 (by decide)
  simp_all [writeByte, range'_eq_map_range, range_succ]

theorem range'_glue (m n : ℕ) : range' 0 m ++ range' m n = range' 0 (m + n) := by
  simpa using range'_append_1 (s := 0)

/-- Where the first not-null filter stops reading. -/
def scanEnd (base len : ℕ) : ℕ := if len < 8 then len else max len (len / 8 * 8 + (8 - base % 8) % 8)

theorem scanBitmap_eq : scanBitmap validData base len =
      ((range (scanEnd base len)).filter fun i => validBit validData (i + base)).map toU16 := by
  let bit i : List ℕ := write i (validBit validData (i + base))
  -- `k` positions are missing to the next byte boundary
  obtain ⟨k, hk⟩ : ∃ k, k = (8 - base % 8) % 8 := ⟨_, rfl⟩
  have haligned : count (fun i => i < len && (i + base) % 8 != 0) 1 bit len 0 =
      (min len k, (range' 0 (min len k)).flatMap bit) := by
    refine count_until ?_ (Nat.zero_le _) (by omega) fun j _ hj => ?_
    · rcases Nat.lt_or_ge k len with h | h
      · have hmod : (min len k + base) % 8 = 0 := by omega
        simp [hmod]
      · simp [Nat.min_eq_left h]
    · have hmod : (j + base) % 8 ≠ 0 := by omega
      simp only [Bool.and_eq_true, decide_eq_true_eq, bne_iff_ne]
      exact ⟨by omega, hmod⟩
  obtain ⟨n, hn⟩ : ∃ n, n = rounds (len / 8 * 8) (min len k) 8 := ⟨_, rfl⟩
  have hbytes : count (fun i => i < len / 8 * 8) 8 (fun i => writeByte (validData ((i + base) / 8)) i) len
      (min len k) = (min len k + n * 8, (range' (min len k) (n * 8)).flatMap bit) := by
    rw [count_lt (by decide) (by omega), ← hn, ← flatMap_range'_blocks]
    refine Prod.ext rfl (flatMap_congr fun i hi => ?_)
    obtain ⟨j, hj, rfl⟩ := mem_range'.1 hi
    -- there are rounds only if the bitmap became aligned
    have hlen : k < len := by
      by_contra hle
      have hzero : n = 0 := by rw [hn]; exact rounds_of_le (by omega) (by decide)
      omega
    exact writeByte_eq (by omega)
  have hend : max len (min len k + n * 8) = scanEnd base len := by
    rw [scanEnd, hn, rounds]
    split <;> omega
  show (count (fun i => i < len && (i + base) % 8 != 0) 1 bit len 0).2 ++ _ ++ _ = _
  rw [haligned, hbytes, count_lt Nat.one_pos (by omega), rounds_one, ← flatMap_write]
  rw [← flatMap_append, ← flatMap_append, range_eq_range']
  congr 1
  rw [range'_glue, range'_glue]
  congr 1
  omega

end Kernels

/-! ## Filters one after another -/

theorem inValues_eq (values : List ℤ) (value : ℤ) : inValues values value = values.contains value := by
  have hmem : value ∈ values.mergeSort ↔ value ∈ values := mem_mergeSort
  have hsorted : values.mergeSort.Pairwise (· ≤ ·) := by
    refine (pairwise_mergeSort (fun a b c hab hbc => ?_) (fun a b => ?_) values).imp fun h => of_decide_eq_true h
    · exact decide_eq_true (le_trans (of_decide_eq_true hab) (of_decide_eq_true hbc))
    · simpa using le_total a b
  rw [Bool.eq_iff_iff, contains_iff_mem, ← hmem, inValues]
  split
  · simp
  · exact Search.binarySearch_iff hsorted value

section Chain

variable {f : Filter} {view : ArrayView} {offset len pos : ℕ} {sel : List ℕ}

theorem Filter.filter_eq (hf : f ≠ .firstNotNull) (h : ∀ i ∈ sel, i < 65536) :
    f.filter sel view offset = sel.filter fun i => f.passes view offset i := by
  have hkeep (hne : f ≠ .notNull) : (fun i => f.passes view offset i) = f.keeps view offset := by
    simp [passes, beq_eq_false_iff_ne.2 hne]
  cases f with
  | firstNotNull => exact absurd rfl hf
  | notNull =>
    rw [filter]
    split
    · next hzero => simp [passes, hzero]
    · next hzero =>
      rw [unrolled_eq (by decide) h]
      exact filter_congr fun i _ => by simp [passes, hzero]
  | simpleType cmp v | varLen32 cmp v => rw [hkeep nofun]; exact unrolled_eq (by decide) h
  | simpleTypeIn values | varLen32In values => rw [hkeep nofun]; exact plain_eq h

/-- Inside the batch, what a kernel looks at is the row. -/
theorem Filter.passes_eq_satisfied (hpos : pos < len) (hin : offset + len ≤ view.length) :
    f.passes view offset pos = f.satisfied view (pos + offset) := by
  cases f with
  | notNull =>
    rw [passes]
    by_cases hzero : view.nullCount = 0
    · have hvalid : view.isValid (pos + offset) := view.noNulls hzero (pos + offset) (by omega)
      simp [satisfied, keeps, hvalid]
    · simp [satisfied, keeps, hzero]
  | simpleTypeIn values => simp [passes, satisfied, keeps, inValues_eq]
  | _ => simp [passes, satisfied, keeps]

theorem Restrictions.applyFrom_eq (getArrayView : ℕ → ArrayView) : ∀ {fs : List (Filter × ℕ)} {sel : List ℕ},
    (∀ f ∈ fs, f.1 ≠ .firstNotNull) → (∀ i ∈ sel, i < 65536) → applyFrom offset getArrayView fs sel =
        sel.filter fun i => fs.all fun f => f.1.passes (getArrayView f.2) offset i := by
  intro fs
  induction fs with
  | nil => intro sel _ _; simp [applyFrom]
  | cons f fs ih =>
    intro sel hfs h
    rw [applyFrom, Filter.filter_eq (hfs f mem_cons_self) h]
    split
    · next hnil =>
      -- nothing is left for the other filters
      refine (filter_eq_nil_iff.2 fun i hi hall => ?_).symm
      rw [all_cons, Bool.and_eq_true] at hall
      exact filter_eq_nil_iff.1 hnil i hi hall.1
    · rw [ih (fun g hg => hfs g (mem_cons_of_mem f hg)) fun i hi => h i (mem_of_mem_filter hi), filter_filter]
      exact filter_congr fun i _ => by rw [all_cons, Bool.and_comm]

end Chain

namespace Restrictions

variable {r : Restrictions} {b : Batch} {fs : List (Filter × ℕ)} {colId : ℕ}

theorem small (i) (hi : i ∈ range b.length) : i < 65536 := lt_of_lt_of_le (mem_range.1 hi) b.fits

theorem firstOnly_tail {f : Filter × ℕ} (hfs : r.filters = f :: fs) : ∀ g ∈ fs, g.1 ≠ .firstNotNull :=
  fun g hg => r.firstOnly g (by rw [hfs]; exact hg)

theorem selected_eq_passes (hfs : r.filters = fs) : r.selected b =
      (range b.length).filter fun i => fs.all fun f => f.1.passes (b.getArrayView f.2) b.offset i := by
  refine filter_congr fun i hi => ?_
  have hpos := mem_range.1 hi
  congr 1
  funext f
  exact (Filter.passes_eq_satisfied hpos (b.inside f.2)).symm

/-- Without the first not-null filter at work, what is selected is right. -/
theorem applyFrom_eq_selected (hfs : r.filters = fs) (hne : ∀ f ∈ fs, f.1 ≠ .firstNotNull) :
    applyFrom b.offset b.getArrayView fs (range b.length) = r.selected b := by
  rw [selected_eq_passes hfs]
  exact applyFrom_eq b.getArrayView hne small

theorem applyFrom_noNulls (hfs : r.filters = (.firstNotNull, colId) :: fs)
    (hnull : (b.getArrayView colId).nullCount = 0) :
    applyFrom b.offset b.getArrayView ((.firstNotNull, colId) :: fs) (range b.length) = r.selected b := by
  have hall : (range b.length).filter (fun i => fs.all fun f => f.1.passes (b.getArrayView f.2) b.offset i) =
      r.selected b := by
    rw [selected_eq_passes hfs]
    refine filter_congr fun i hi => ?_
    have hvalid : Filter.firstNotNull.passes (b.getArrayView colId) b.offset i :=
      (b.getArrayView colId).noNulls hnull (i + b.offset) (by
        have := b.inside colId
        have := mem_range.1 hi
        omega)
    rw [all_cons, hvalid, Bool.true_and]
  rw [applyFrom, Filter.filter, if_pos hnull, applyFrom_eq b.getArrayView (firstOnly_tail hfs) small, hall]
  split
  · next hnil => rw [selected, hnil]; rfl
  · rfl

/-- With it, the positions behind the batch that survive come after those
that are right. -/
theorem applyFrom_firstNotNull (hfs : r.filters = (.firstNotNull, colId) :: fs)
    (hnull : (b.getArrayView colId).nullCount ≠ 0) : applyFrom b.offset b.getArrayView r.filters (range b.length) =
      r.selected b ++ ((r.overrun b).filter fun p => r.survives b p).map toU16 := by
  let view := b.getArrayView colId
  have hbit i : validBit view.validData (i + (b.offset + view.offset)) = view.isValid (i + b.offset) := by
    rw [ArrayView.isValid, Nat.add_assoc]
  -- the positions read are those of the batch and those behind it
  have hread : range (scanEnd (b.offset + (b.getArrayView colId).offset) b.length) = range b.length ++ r.overrun b := by
    simp only [overrun, hfs, scanEnd, hnull, false_or]
    split
    · simp
    · rw [range_eq_range', range_eq_range', range'_glue]
      congr 1
      omega
  have hscan : Filter.firstNotNull.filter (range b.length) view b.offset =
      ((range b.length).filter fun i => view.isValid (i + b.offset)) ++
        ((r.overrun b).filter fun i => view.isValid (i + b.offset)).map toU16 := by
    rw [Filter.filter, if_neg hnull, length_range, scanBitmap_eq, hread, filter_append, map_append]
    rw [map_toU16 fun i hi => small i (mem_of_mem_filter hi)]
    simp only [hbit]
  have hsmall : ∀ i ∈ Filter.firstNotNull.filter (range b.length) view b.offset, i < 65536 := by
    intro i hi
    rw [hscan, mem_append] at hi
    rcases hi with hi | hi
    · exact small i (mem_of_mem_filter hi)
    · obtain ⟨p, -, rfl⟩ := mem_map.1 hi
      exact toU16_lt p
  have hrest : applyFrom b.offset b.getArrayView r.filters (range b.length) =
      (Filter.firstNotNull.filter (range b.length) view b.offset).filter
        fun i => fs.all fun g => g.1.passes (b.getArrayView g.2) b.offset i := by
    rw [hfs, applyFrom, applyFrom_eq b.getArrayView (firstOnly_tail hfs) hsmall]
    split
    · next hnil => rw [show Filter.firstNotNull.filter (range b.length) view b.offset = [] from hnil]; rfl
    · rfl
  rw [hrest, hscan, filter_append, filter_filter, filter_map, filter_filter]
  congr 1
  · rw [selected_eq_passes hfs]
    refine filter_congr fun i _ => ?_
    rw [Bool.and_comm]
    rfl
  · congr 1
    refine filter_congr fun p _ => ?_
    rw [survives, hfs, Bool.and_comm]
    rfl

/-- What the filters select: the right positions, and behind them the
positions after the batch that get past all filters. -/
theorem applyFilters_eq (r : Restrictions) (b : Batch) : r.applyFilters b.offset b.length b.getArrayView =
      r.selected b ++ ((r.overrun b).filter fun p => r.survives b p).map toU16 := by
  cases hfs : r.filters with
  | nil => simp [applyFilters, overrun, selected, hfs]
  | cons f fs =>
    obtain ⟨f, colId⟩ := f
    have hfrom : r.applyFilters b.offset b.length b.getArrayView =
        applyFrom b.offset b.getArrayView r.filters (range b.length) := by
      rw [applyFilters, if_neg (by rw [hfs]; exact cons_ne_nil _ _)]
    by_cases hfirst : f = .firstNotNull ∧ (b.getArrayView colId).nullCount ≠ 0
    · obtain ⟨rfl, hnull⟩ := hfirst
      rw [hfrom, applyFrom_firstNotNull hfs hnull]
    · have hoverrun : r.overrun b = [] := by
        rw [overrun, hfs]
        cases f with
        | firstNotNull => exact if_pos (.inl (by_contra fun h => hfirst ⟨rfl, h⟩))
        | _ => rfl
      rw [hoverrun, filter_nil, map_nil, append_nil, hfrom, hfs]
      by_cases hf : f = .firstNotNull
      · subst hf
        have hnull : (b.getArrayView colId).nullCount = 0 := by_contra fun h => hfirst ⟨rfl, h⟩
        exact applyFrom_noNulls hfs hnull
      · exact applyFrom_eq_selected hfs (forall_mem_cons.2 ⟨hf, firstOnly_tail hfs⟩)

/-- **The filters select the right positions exactly if no position behind
the batch that the first not-null filter reads gets past all of them.** -/
theorem applyFilters_eq_selected_iff (r : Restrictions) (b : Batch) :
    r.applyFilters b.offset b.length b.getArrayView = r.selected b ↔ ∀ p ∈ r.overrun b, r.survives b p = false := by
  rw [applyFilters_eq, append_right_eq_self, map_eq_nil_iff]
  simp

/-- Eight rows of an array that starts at bit 7 of its bitmap; the second row
is null, and the bit behind the last one is set. -/
def unalignedView : ArrayView where
  length := 8
  nullCount := 1
  offset := 7
  validData := fun i => if i = 1 then 254#8 else 255#8
  data := fun _ => 0
  offsets := fun _ => 0
  bytes := fun _ => 0
  noNulls := by decide

/-- The not-null filter on these eight rows selects position 8. -/
theorem applyFilters_unaligned :
    let r : Restrictions := ⟨[(.firstNotNull, 0)], by simp⟩
    let b : Batch := ⟨0, 8, fun _ => unalignedView, by decide, fun _ => by decide⟩
    r.applyFilters b.offset b.length b.getArrayView = [0, 2, 3, 4, 5, 6, 7, 8] ∧
      r.selected b = [0, 2, 3, 4, 5, 6, 7] := by
  decide

end Restrictions

end GengoDB.Scan
