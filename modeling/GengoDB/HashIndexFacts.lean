/-
What a lookup finds and where row ids lead.

The chains of a built table hold the entries of the buffer (`lookup_buildTable`),
and an entry has the hash of its row (`newEntries_eq`). Chunks that start one
after the other give every row id its chunk and offset (`getByRowId_spec`).
-/
import GengoDB.HashIndex
import Mathlib.Data.List.Nodup
import Mathlib.Data.List.FinRange

namespace GengoDB.HashIndex

open List

variable {α : Type} (env : Env α) {chunks : List (TableChunk α)} {i rowId : ℕ}

/-! ## Hashes -/

/-- The hash of the key of a row. -/
def rowHash (row : α) : BitVec 64 :=
  (finRange env.types.length).foldl (fun acc i => Hash.foldCell env.xxHash64 (env.types.get i) acc (env.key row i)) 0

/-- A column is folded into the hash of every row. -/
theorem foldl_dbHashApplyColumn {types : List Hash.ArrowType} (xxHash64 : Bytes → BitVec 64) (keys : List (Key types)) :
    ∀ (is : List (Fin types.length)) (running : Key types → BitVec 64),
      (is.map fun i => (⟨types.get i, keys.map fun k => k i⟩ : Hash.Column)).foldl (Hash.dbHashApplyColumn xxHash64)
          (keys.map running)
        = keys.map fun k => is.foldl (fun acc i => Hash.foldCell xxHash64 (types.get i) acc (k i)) (running k)
  | [], _ => rfl
  | i :: is, running => by
    rw [map_cons, foldl_cons, Hash.dbHashApplyColumn, zipWith_map, zipWith_self]
    exact foldl_dbHashApplyColumn xxHash64 keys is fun k => Hash.foldCell xxHash64 (types.get i) (running k) (k i)

theorem totalHash_keyColumns (rows : List α) :
    Hash.totalHash env.xxHash64 rows.length (keyColumns (rows.map env.key)) = rows.map (rowHash env) := by
  have hstart : replicate rows.length (0 : BitVec 64) = (rows.map env.key).map fun _ => 0 := by
    rw [map_const', length_map]
  rw [Hash.totalHash, keyColumns, hstart, foldl_dbHashApplyColumn, map_map]
  rfl

/-- The entries of rows from a row id on. -/
def indexed (rows : List α) (startRowId : ℕ) : List Entry :=
  (rows.zipIdx startRowId).map fun x => ⟨rowHash env x.1, x.2⟩

theorem newEntries_eq (startRowId : ℕ) (rows : List α) : newEntries env startRowId rows = indexed env rows startRowId := by
  have hshift : rows.zipIdx startRowId = rows.zipIdx.map fun x => (x.1, startRowId + x.2) := zipIdx_eq_map_add
  rw [newEntries, totalHash_keyColumns, indexed, hshift, zipIdx_map, map_map, map_map]
  exact map_congr_left fun x _ => by rw [Function.comp_apply, Function.comp_apply, Nat.add_comm]; rfl

theorem indexed_append (a b : List α) (startRowId : ℕ) :
    indexed env (a ++ b) startRowId = indexed env a startRowId ++ indexed env b (startRowId + a.length) := by
  rw [indexed, zipIdx_append, map_append]
  rfl

/-! ## Lookups -/

theorem rowIds_eq (hash : BitVec 64) (chain : List Entry) :
    rowIds hash chain = (chain.filter (·.hash = hash)).map (·.rowId) := by
  induction chain with
  | nil => rfl
  | cons e chain ih =>
    rw [rowIds]
    split <;> simp_all

/-- A chain holds the entries of its bucket, the last one first. -/
theorem foldl_link (mask : ℕ) (buffer : List Entry) (bucket : ℕ → List Entry) (idx : ℕ) :
    buffer.foldl (link mask) bucket idx = (buffer.filter (·.hash.toNat &&& mask = idx)).reverse ++ bucket idx := by
  induction buffer generalizing bucket with
  | nil => rfl
  | cons e buffer ih =>
    rw [foldl_cons, ih, link]
    by_cases h : e.hash.toNat &&& mask = idx
    · simp [h]
    · simp [h, Function.update_of_ne (Ne.symm h)]

/-- A lookup finds the entries with its hash. -/
theorem lookup_buildTable (buffer : List Entry) (hash : BitVec 64) : let ht := buildTable buffer
    (rowIds hash (ht.bucket (hash.toNat &&& ht.mask))).Perm ((buffer.filter (·.hash = hash)).map (·.rowId)) := by
  intro ht
  have hchain : (ht.bucket (hash.toNat &&& ht.mask)).filter (·.hash = hash) = (buffer.filter (·.hash = hash)).reverse := by
    dsimp only [ht, buildTable]
    rw [foldl_link, append_nil, filter_reverse, filter_filter]
    congr 1
    refine filter_congr fun e _ => ?_
    by_cases h : e.hash = hash <;> simp [h]
  rw [rowIds_eq, hchain]
  exact (reverse_perm _).map _

theorem mem_indexed {rows : List α} {startRowId : ℕ} {e : Entry} :
    e ∈ indexed env rows startRowId ↔ startRowId ≤ e.rowId
      ∧ ∃ row, rows[e.rowId - startRowId]? = some row ∧ rowHash env row = e.hash := by
  simp only [indexed, mem_map, Prod.exists, mk_mem_zipIdx_iff_le_and_getElem?_sub]
  constructor
  · rintro ⟨row, i, ⟨hle, hrow⟩, rfl⟩
    exact ⟨hle, row, hrow, rfl⟩
  · rintro ⟨hle, row, hrow, hhash⟩
    exact ⟨row, e.rowId, ⟨hle, hrow⟩, by rw [hhash]⟩

theorem nodup_indexed (rows : List α) (startRowId : ℕ) : ((indexed env rows startRowId).map (·.rowId)).Nodup := by
  have hids : (indexed env rows startRowId).map (·.rowId) = (rows.zipIdx startRowId).map Prod.snd := by
    rw [indexed, map_map]
    rfl
  rw [hids, zipIdx_map_snd]
  exact nodup_range'

/-- The row ids a lookup is to find. -/
structure RowIdsOf (rows : List α) (hash : BitVec 64) (ids : List ℕ) : Prop where
  once : ids.Nodup
  mem_iff : ∀ id, id ∈ ids ↔ ∃ row, rows[id]? = some row ∧ rowHash env row = hash

theorem rowIdsOf_buildTable {rows : List α} {buffer : List Entry} (h : buffer.Perm (indexed env rows 0))
    (hash : BitVec 64) : let ht := buildTable buffer
      RowIdsOf env rows hash (rowIds hash (ht.bucket (hash.toNat &&& ht.mask))) := by
  have hperm := (lookup_buildTable buffer hash).trans ((h.filter _).map _)
  constructor
  · refine hperm.nodup_iff.mpr ((nodup_indexed env rows 0).sublist ?_)
    exact filter_sublist.map _
  · intro id
    rw [hperm.mem_iff, mem_map]
    constructor
    · rintro ⟨e, he, rfl⟩
      obtain ⟨hmem, hhash⟩ := mem_filter.mp he
      obtain ⟨-, row, hrow, hkey⟩ := (mem_indexed env).mp hmem
      exact ⟨row, hrow, hkey.trans (of_decide_eq_true hhash)⟩
    · rintro ⟨row, hrow, hkey⟩
      refine ⟨⟨hash, id⟩, mem_filter.mpr ⟨(mem_indexed env).mpr ⟨Nat.zero_le _, row, hrow, hkey⟩, ?_⟩, rfl⟩
      exact decide_eq_true rfl

/-! ## Chunks -/

/-- The rows of chunks, in their order. -/
def rowsOf (chunks : List (TableChunk α)) : List α := chunks.flatMap (·.data.rows)

/-- Every chunk starts where the one before ends. -/
def Aligned : ℕ → List (TableChunk α) → Prop
  | _, [] => True
  | start, chunk :: chunks => chunk.startRowId = start ∧ Aligned (start + chunk.numRows) chunks

theorem Aligned.append_singleton {start : ℕ} (h : Aligned start chunks) (data : Batch α) :
    Aligned start (chunks ++ [⟨data, start + (rowsOf chunks).length⟩]) := by
  induction chunks generalizing start with
  | nil => exact ⟨rfl, trivial⟩
  | cons chunk chunks ih =>
    refine ⟨h.1, ?_⟩
    have hrest := ih h.2
    rw [rowsOf, flatMap_cons, length_append, ← Nat.add_assoc]
    exact hrest

variable {chunk : TableChunk α}

theorem Aligned.startRowId {start : ℕ} (h : Aligned start chunks) (hi : chunks[i]? = some chunk) :
    chunk.startRowId = start + (rowsOf (chunks.take i)).length := by
  induction chunks generalizing start i with
  | nil => cases hi
  | cons c chunks ih =>
    cases i with
    | zero =>
      obtain rfl : c = chunk := Option.some.inj hi
      exact h.1
    | succ i =>
      rw [ih h.2 hi, take_succ_cons, rowsOf, rowsOf, flatMap_cons, length_append, ← Nat.add_assoc]
      rfl

theorem length_rowsOf_take_succ (hi : chunks[i]? = some chunk) :
    (rowsOf (chunks.take (i + 1))).length = (rowsOf (chunks.take i)).length + chunk.numRows := by
  rw [take_add_one, hi, rowsOf, flatMap_append]
  simp [rowsOf, TableChunk.numRows]

theorem length_rowsOf_take_mono (chunks : List (TableChunk α)) {j : ℕ} (h : i ≤ j) :
    (rowsOf (chunks.take i)).length ≤ (rowsOf (chunks.take j)).length := by
  rw [← Nat.min_eq_left h, ← take_take, rowsOf, rowsOf]
  conv_rhs => rw [← take_append_drop i (chunks.take j), flatMap_append, length_append]
  exact Nat.le_add_right _ _

/-- The place of a row: its chunk and its offset in it. -/
structure Place (chunks : List (TableChunk α)) (rowId pos offset : ℕ) : Prop where
  chunk : ∃ chunk, chunks[pos]? = some chunk ∧ offset < chunk.numRows ∧ chunk.data.rows[offset]? = (rowsOf chunks)[rowId]?
  before : (rowsOf (chunks.take pos)).length + offset = rowId

theorem place_of_bounds {pos : ℕ} (hpos : chunks[pos]? = some chunk) (hlow : (rowsOf (chunks.take pos)).length ≤ rowId)
    (hhigh : rowId < (rowsOf (chunks.take pos)).length + chunk.numRows) :
    Place chunks rowId pos (rowId - (rowsOf (chunks.take pos)).length) := by
  refine ⟨⟨chunk, hpos, by omega, ?_⟩, by omega⟩
  have hlt := (List.getElem?_eq_some_iff.mp hpos).1
  have hchunk := (List.getElem?_eq_some_iff.mp hpos).2
  have hsplit : rowsOf chunks = rowsOf (chunks.take pos) ++ (chunk.data.rows ++ rowsOf (chunks.drop (pos + 1))) := by
    conv_lhs => rw [← take_append_drop pos chunks, drop_eq_getElem_cons hlt, hchunk]
    simp [rowsOf]
  rw [hsplit, List.getElem?_append_right hlow, List.getElem?_append_left]
  exact Nat.sub_lt_left_of_lt_add hlow hhigh

/-- Every row id of the table is resolved to its place. -/
theorem getByRowId_spec {table : LingoDBTable α} (h : Aligned 0 table.tableData)
    (hrow : rowId < (rowsOf table.tableData).length) :
    ∃ pos offset, getByRowId table rowId = some (pos, offset) ∧ Place table.tableData rowId pos offset := by
  have hend : ∀ i < table.tableData.length,
      chunkEnd table.tableData i = (rowsOf (table.tableData.take (i + 1))).length := fun i hi => by
    have hchunk := List.getElem?_eq_getElem hi
    rw [length_rowsOf_take_succ hchunk, chunkEnd, hchunk, Option.elim_some, h.startRowId hchunk, Nat.zero_add]
  obtain ⟨-, hle, hbelow, habove⟩ : Search.Separates (fun i => !decide (rowId < chunkEnd table.tableData i)) 0
      table.tableData.length _ := Search.partitionPoint_spec fun i j _ hij hj hp => by
    simp only [Bool.not_eq_true', decide_eq_false_iff_not, Nat.not_lt] at hp ⊢
    rw [hend i (by omega)]
    rw [hend j (by omega)] at hp
    exact (length_rowsOf_take_mono _ (by omega)).trans hp
  simp only [Nat.zero_add, Bool.not_eq_true', Bool.not_eq_false', decide_eq_false_iff_not, decide_eq_true_eq, Nat.not_lt,
    Nat.zero_le, true_implies] at hle hbelow habove
  set res := Search.partitionPoint (fun i => !decide (rowId < chunkEnd table.tableData i)) 0 table.tableData.length
  -- the last chunk ends behind the row
  have hlt : res < table.tableData.length := by
    by_contra hge
    have hlen : 0 < table.tableData.length := by
      by_contra hzero
      rw [length_eq_zero_iff.mp (by omega : table.tableData.length = 0)] at hrow
      cases hrow
    have hlast := hbelow (table.tableData.length - 1) (by omega)
    rw [hend _ (by omega), take_of_length_le (by omega)] at hlast
    omega
  have hchunk := List.getElem?_eq_getElem hlt
  have hhigh := habove res (Nat.le_refl _) hlt
  rw [hend res hlt, length_rowsOf_take_succ hchunk] at hhigh
  have hlow : (rowsOf (table.tableData.take res)).length ≤ rowId := by
    rcases Nat.eq_zero_or_pos res with h0 | hpos
    · rw [h0]
      exact Nat.zero_le _
    · have hprev := hbelow (res - 1) (by omega)
      rwa [hend _ (by omega), Nat.sub_add_cancel hpos] at hprev
  refine ⟨res, _, ?_, place_of_bounds hchunk hlow hhigh⟩
  rw [getByRowId, hchunk, Option.map_some, h.startRowId hchunk, Nat.zero_add]

end GengoDB.HashIndex
