/-
The value pools of a property graph (`PropertyGraph::PropertyData` and
`BlobTable` in `runtime/BuiltinGraphs.h`, `.cpp`): three columns of 64-bit
values and, for every type that has some, a table of byte strings. A blob
table is one buffer with a directory of offsets and lengths; `alloc` puts
each string after the last one, so the directory is determined by the lengths
(`BlobTable.Valid`), and the lengths are all that `flush` writes of it.

`PropertyData.reads_flush`: `load` gets every value back under its index, in
whatever order the tables were written.
-/
import Mathlib.Algebra.Order.BigOperators.Group.List
import Mathlib.Data.List.Induction
import Mathlib.Data.Nat.Cast.Basic
import GengoDB.Assoc
import GengoDB.Codec
import GengoDB.Datatypes

namespace GengoDB

open Codec List

/-! ## Blob tables -/

/-- A buffer of `cap` bytes and the offset and length of each blob in it. -/
structure BlobTable where
  cap : Nat
  data : Nat → Byte
  blobs : List (Nat × Nat)

namespace BlobTable

def create (cap : Nat) : BlobTable := { cap, data := fun _ => 0, blobs := [] }

section
variable (t : BlobTable)

/-- Where the last blob ends. -/
def usedBytes : Nat :=
  match t.blobs.getLast? with
  | none => 0
  | some (ptr, len) => ptr + len

/-- `alloc`: the offset and the index of a new blob; `none` is a failed
assertion. -/
def alloc (len : Nat) : Option (Nat × Nat × BlobTable) :=
  if t.usedBytes + len ≤ t.cap ∧ t.blobs.length < 2 ^ 31 then
    some (t.usedBytes, t.blobs.length, { t with blobs := t.blobs ++ [(t.usedBytes, len)] })
  else none

/-- `memcpy` to an offset of the buffer. -/
def write (ptr : Nat) (bytes : Bytes) : BlobTable :=
  { t with data := fun i => if ptr ≤ i then (bytes[i - ptr]?).getD (t.data i) else t.data i }

/-- `len` bytes of the buffer from `ptr` on. -/
def slice (ptr len : Nat) : Bytes := (List.range len).map fun k => t.data (ptr + k)

/-- The bytes of a blob. -/
def get (idx : Nat) : Option Bytes := (t.blobs[idx]?).map fun b => t.slice b.1 b.2

end

/-- The directory of blobs that lie after one another. -/
def layout : Nat → List Nat → List (Nat × Nat)
  | _, [] => []
  | ptr, len :: lens => (ptr, len) :: layout (ptr + len) lens

/-- `restore` of a table just created. -/
def restore (cap : Nat) (raw : Bytes) (lengths : List Nat) : BlobTable where
  cap := cap
  data i := (raw[i]?).getD 0
  blobs := layout 0 lengths

/-- The blobs lie after one another inside the buffer. -/
structure Valid (t : BlobTable) : Prop where
  contiguous : t.blobs = layout 0 (t.blobs.map (·.2))
  used_le : t.usedBytes ≤ t.cap

theorem layout_append (ptr len : Nat) (lens : List Nat) :
    layout ptr (lens ++ [len]) = layout ptr lens ++ [(ptr + lens.sum, len)] := by
  induction lens generalizing ptr with
  | nil => simp [layout]
  | cons l lens ih => simp [layout, ih, Nat.add_assoc]

variable {ptr len idx : Nat} {lens : List Nat} {b : Nat × Nat}

theorem layout_end_le (h : b ∈ layout ptr lens) : b.1 + b.2 ≤ ptr + lens.sum := by
  induction lens generalizing ptr with
  | nil => cases h
  | cons l lens ih =>
    obtain rfl | h := mem_cons.1 h
    · simp
    · have := ih h
      simp only [sum_cons]
      omega

variable {t t' : BlobTable}

theorem usedBytes_of_layout (h : t.blobs = layout 0 lens) : t.usedBytes = lens.sum := by
  induction lens using reverseRecOn with
  | nil => simp [usedBytes, h, layout]
  | append_singleton lens l => simp [usedBytes, h, layout_append]

theorem Valid.usedBytes_eq (h : t.Valid) : t.usedBytes = (t.blobs.map (·.2)).sum := usedBytes_of_layout h.contiguous

/-- So many blobs of such lengths end below `2 ^ 64`. -/
theorem Valid.usedBytes_lt (h : t.Valid) (hcount : t.blobs.length < 2 ^ 32) (hlen : ∀ b ∈ t.blobs, b.2 < 2 ^ 32) :
    t.usedBytes < 256 ^ 8 := by
  have hsum := sum_le_card_nsmul (t.blobs.map (·.2)) (2 ^ 32 - 1) (by
    intro len hl
    obtain ⟨b, hb, rfl⟩ := mem_map.1 hl
    exact Nat.le_sub_one_of_lt (hlen b hb))
  rw [length_map, nsmul_eq_mul, Nat.cast_id, ← h.usedBytes_eq] at hsum
  omega

theorem Valid.end_le (h : t.Valid) (hb : b ∈ t.blobs) : b.1 + b.2 ≤ t.usedBytes := by
  rw [h.contiguous] at hb
  rw [h.usedBytes_eq]
  simpa using layout_end_le hb

theorem valid_create (cap : Nat) : (create cap).Valid where
  contiguous := rfl
  used_le := Nat.zero_le _

theorem alloc_eq_some (h : t.alloc len = some (ptr, idx, t')) :
    t.usedBytes + len ≤ t.cap ∧ t.blobs.length < 2 ^ 31 ∧ ptr = t.usedBytes ∧ idx = t.blobs.length ∧
      t' = { t with blobs := t.blobs ++ [(t.usedBytes, len)] } := by
  unfold alloc at h
  split at h
  · next hlen =>
    cases h
    exact ⟨hlen.1, hlen.2, rfl, rfl, rfl⟩
  · cases h

theorem alloc_isSome_iff : (t.alloc len).isSome ↔ t.usedBytes + len ≤ t.cap ∧ t.blobs.length < 2 ^ 31 := by
  unfold alloc
  split
  · next h => exact iff_of_true rfl h
  · next h => exact iff_of_false nofun h

theorem Valid.alloc (ht : t.Valid) (h : t.alloc len = some (ptr, idx, t')) : t'.Valid := by
  obtain ⟨hcap, -, -, -, rfl⟩ := alloc_eq_some h
  refine ⟨?_, ?_⟩
  · have hl := layout_append 0 len (t.blobs.map (·.2))
    rw [← ht.contiguous, ← ht.usedBytes_eq] at hl
    simpa using hl.symm
  · simpa [usedBytes] using hcap

theorem Valid.write (ht : t.Valid) (ptr : Nat) (bytes : Bytes) : (t.write ptr bytes).Valid :=
  ⟨ht.contiguous, ht.used_le⟩

theorem slice_congr (h : ∀ i, ptr ≤ i → i < ptr + len → t'.data i = t.data i) : t'.slice ptr len = t.slice ptr len :=
  map_congr_left fun k hk => h (ptr + k) (by omega) (by simp at hk; omega)

theorem slice_write (t : BlobTable) (ptr : Nat) (bytes : Bytes) :
    (t.write ptr bytes).slice ptr bytes.length = bytes := by
  refine ext_getElem (by simp [slice]) fun i hi hb => ?_
  simp [slice, BlobTable.write, getElem?_eq_getElem hb]

/-- What lies before the written bytes is as it was. -/
theorem slice_write_of_le {p : Nat} (bytes : Bytes) (h : p + len ≤ ptr) :
    (t.write ptr bytes).slice p len = t.slice p len :=
  slice_congr fun i _ hi => if_neg (by omega)

/-- **A new blob** reads back as what was written into it, and the others as
before. -/
theorem get_alloc_write {bytes : Bytes} (ht : t.Valid) (h : t.alloc bytes.length = some (ptr, idx, t')) (i : Nat) :
    (t'.write ptr bytes).get i = if i = idx then some bytes else t.get i := by
  obtain ⟨-, -, rfl, rfl, rfl⟩ := alloc_eq_some h
  split
  · next hi =>
    subst hi
    simpa [get, BlobTable.write] using slice_write { t with blobs := _ } t.usedBytes bytes
  · by_cases hlt : i < t.blobs.length
    · have hend := ht.end_le (getElem_mem hlt)
      simp only [get, BlobTable.write, getElem?_append_left hlt, getElem?_eq_getElem hlt]
      exact congrArg some (slice_write_of_le bytes hend)
    · have hnone : (t.blobs ++ [(t.usedBytes, bytes.length)])[i]? = none := by simp; omega
      simp [get, BlobTable.write, hnone, getElem?_eq_none (Nat.le_of_not_lt hlt)]

/-- The table `load` makes of what `flush` wrote: only the used bytes and
the lengths survive. -/
def reloaded (t : BlobTable) : BlobTable :=
  restore (max t.usedBytes 1024) (t.slice 0 t.usedBytes) (t.blobs.map (·.2))

theorem Valid.blobs_reloaded (ht : t.Valid) : t.reloaded.blobs = t.blobs := ht.contiguous.symm

/-- Every blob survives a reload. -/
theorem Valid.get_reloaded (ht : t.Valid) (idx : Nat) : t.reloaded.get idx = t.get idx := by
  unfold get
  rw [ht.blobs_reloaded]
  cases hb : t.blobs[idx]? with
  | none => rfl
  | some b =>
    have hend := ht.end_le (mem_of_getElem? hb)
    refine congrArg some (slice_congr fun i _ hi => ?_)
    have hused : i < t.usedBytes := by omega
    simp [reloaded, restore, slice, hused]

theorem Valid.usedBytes_reloaded (ht : t.Valid) : t.reloaded.usedBytes = t.usedBytes := by
  simp only [usedBytes, ht.blobs_reloaded]

theorem Valid.reloaded (ht : t.Valid) : t.reloaded.Valid where
  contiguous := by
    rw [ht.blobs_reloaded]
    exact ht.contiguous
  used_le := by
    rw [ht.usedBytes_reloaded]
    exact Nat.le_max_left _ _

end BlobTable

/-! ## Value pools -/

/-- The 64-bit columns hold bit patterns; the blob tables are a map. -/
structure PropertyData where
  blobCapacity : Nat
  i64 : List (BitVec 64)
  ui64 : List (BitVec 64)
  double : List (BitVec 64)
  blobs : List (XsdType × BlobTable)

namespace PropertyData

/-- The pools of a graph just created. -/
def create (propCapacity : Int) : PropertyData where
  blobCapacity := max (1024 * 1024) (propCapacity.toNat * 256)
  i64 := []
  ui64 := []
  double := []
  blobs := []

/-! A value is added at the end of its column; its index is what the property
record stores. -/

variable (d : PropertyData)

def addI64 (v : BitVec 64) : Nat × PropertyData := (d.i64.length, { d with i64 := d.i64 ++ [v] })

def addUi64 (v : BitVec 64) : Nat × PropertyData :=
  (d.ui64.length, { d with ui64 := d.ui64 ++ [v] })

def addDouble (v : BitVec 64) : Nat × PropertyData :=
  (d.double.length, { d with double := d.double ++ [v] })

def getBlob (type : XsdType) (idx : Nat) : Option Bytes := (d.blobs.lookup type).bind (·.get idx)

/-- The table of a type, or the one `add_blob` makes for a first blob. -/
def tableFor (type : XsdType) (len : Nat) : BlobTable :=
  (d.blobs.lookup type).getD (.create (max d.blobCapacity len))

def setTable (type : XsdType) (t : BlobTable) : PropertyData :=
  { d with blobs := Assoc.insert d.blobs type t }

/-- `add_blob` and the `memcpy` into the new blob. -/
def addBlob (type : XsdType) (bytes : Bytes) : Option (Nat × PropertyData) := do
  let (ptr, idx, table) ← (d.tableFor type bytes.length).alloc bytes.length
  return (idx, d.setTable type (table.write ptr bytes))

/-! ## The file -/

def putTable (e : XsdType × BlobTable) : List Byte :=
  putLE 4 e.1.toInt32 ++ (putVec (fun b => putLE 4 b.2) e.2.blobs ++
    (putLE 8 e.2.usedBytes ++ e.2.slice 0 e.2.usedBytes))

/-- `PropertyData::flush`; `order` is the order the map of tables is
iterated in. -/
def flush (order : List (XsdType × BlobTable)) : List Byte :=
  putVec (fun v => putLE 8 v.toNat) d.i64 ++ (putVec (fun v => putLE 8 v.toNat) d.ui64 ++
    (putVec (fun v => putLE 8 v.toNat) d.double ++ (putLE 4 order.length ++ order.flatMap putTable)))

def word : Reader (BitVec 64) := BitVec.ofNat 64 <$> le 8

/-- One table; flush writes no type that is not an enumerator. -/
def table : Reader (XsdType × BlobTable) := do
  let typeVal ← le 4
  let type ← check (XsdType.ofInt32 typeVal)
  let lengths ← vec (le 4)
  let used ← le 8
  let bytes ← raw used
  return (type, .restore (max used 1024) bytes lengths)

/-- `PropertyData::load`; a type that has a table keeps it. -/
def load : Reader PropertyData := do
  let i64 ← vec word
  let ui64 ← vec word
  let double ← vec word
  let typeCount ← le 4
  let tables ← repeated table typeCount
  return { d with i64, ui64, double, blobs := tables.foldl (fun l e => Assoc.emplace l e.1 e.2) d.blobs }

/-! ## Invariants -/

/-- One table for a type, and every table as `alloc` builds it. -/
structure Valid (d : PropertyData) : Prop where
  nodup : (d.blobs.map (·.1)).Nodup
  table : ∀ e ∈ d.blobs, e.2.Valid

/-- The counts and the blob lengths fit in 32 bits. -/
structure Fits32 (d : PropertyData) : Prop where
  i64 : d.i64.length < 2 ^ 32
  ui64 : d.ui64.length < 2 ^ 32
  double : d.double.length < 2 ^ 32
  tables : d.blobs.length < 2 ^ 32
  blobs : ∀ e ∈ d.blobs, e.2.blobs.length < 2 ^ 32
  lengths : ∀ e ∈ d.blobs, ∀ b ∈ e.2.blobs, b.2 < 2 ^ 32

variable {d : PropertyData}

theorem valid_create (propCapacity : Int) : (create propCapacity).Valid where
  nodup := .nil
  table := by simp [create]

theorem lookup_setTable (d : PropertyData) (type t : XsdType) (tb : BlobTable) :
    (d.setTable type tb).blobs.lookup t = if t = type then some tb else d.blobs.lookup t :=
  Assoc.lookup_insert d.blobs type t tb

theorem Valid.setTable (hd : d.Valid) (type : XsdType) {t : BlobTable} (ht : t.Valid) : (d.setTable type t).Valid where
  nodup := Assoc.nodup_insert hd.nodup type t
  table := forall_mem_cons.2 ⟨ht, fun e he => hd.table e (mem_of_mem_filter he)⟩

/-! ## Reading the file back -/

theorem reads_word (v : BitVec 64) : Reads word (putLE 8 v.toNat) v := by
  have h := (Reads.le (n := 8) v.isLt).map (BitVec.ofNat 64)
  rwa [BitVec.ofNat_toNat, BitVec.setWidth_eq] at h

theorem reads_column {l : List (BitVec 64)} (h : l.length < 2 ^ 32) :
    Reads (vec word) (putVec (fun v => putLE 8 v.toNat) l) l := by
  have hvec := Reads.vec (f := id) h fun v _ => reads_word v
  rwa [map_id] at hvec

theorem reads_table {e : XsdType × BlobTable} (he : e.2.Valid) (hcount : e.2.blobs.length < 2 ^ 32)
    (hlen : ∀ b ∈ e.2.blobs, b.2 < 2 ^ 32) : Reads table (putTable e) (e.1, e.2.reloaded) := by
  have htype : e.1.toInt32 < 256 ^ 4 := e.1.toInt32_lt.trans (by decide)
  have hused := he.usedBytes_lt hcount hlen
  have hlens := Reads.vec (f := fun b => b.2) hcount fun b hb => Reads.le (n := 4) (hlen b hb)
  have hraw := Reads.raw (e.2.slice 0 e.2.usedBytes)
  rw [show (e.2.slice 0 e.2.usedBytes).length = e.2.usedBytes by simp [BlobTable.slice]] at hraw
  refine (Reads.le htype).bind ((Reads.check (XsdType.ofInt32_toInt32 e.1)).seq ?_ (nil_append _).symm)
  exact hlens.bind ((Reads.le hused).bind (hraw.seq (.pure _) (append_nil _).symm))

/-- The pools `load` makes of what `flush` wrote. -/
def reloaded (d₀ d : PropertyData) (order : List (XsdType × BlobTable)) : PropertyData :=
  { d₀ with i64 := d.i64, ui64 := d.ui64, double := d.double, blobs := order.map fun e => (e.1, e.2.reloaded) }

variable {order : List (XsdType × BlobTable)}

/-- **`load` after `flush`.** -/
theorem reads_flush {d₀ : PropertyData} (hd : d.Valid) (h32 : d.Fits32)
    (horder : order.Perm d.blobs) (h₀ : d₀.blobs = []) : Reads d₀.load (d.flush order) (reloaded d₀ d order) := by
  have hcount : order.length < 256 ^ 4 := horder.length_eq ▸ h32.tables
  have htables := Reads.repeated fun e he =>
    have he := horder.mem_iff.1 he
    reads_table (hd.table e he) (h32.blobs e he) (h32.lengths e he)
  have hnodup : ((order.map fun e => (e.1, e.2.reloaded)).map (·.1)).Nodup := by
    simpa [Function.comp_def] using (horder.map (·.1)).nodup_iff.2 hd.nodup
  refine (reads_column h32.i64).bind ((reads_column h32.ui64).bind ((reads_column h32.double).bind ?_))
  refine (Reads.le hcount).bind (htables.seq ?_ (append_nil _).symm)
  rw [h₀, Assoc.foldl_emplace (by simpa using hnodup)]
  exact .pure _

theorem lookup_reloaded (d₀ : PropertyData) (hd : d.Valid) (horder : order.Perm d.blobs) (type : XsdType) :
    (reloaded d₀ d order).blobs.lookup type = (d.blobs.lookup type).map BlobTable.reloaded := by
  rw [reloaded, Assoc.lookup_map, Assoc.lookup_perm horder ((horder.map _).nodup_iff.2 hd.nodup)]

/-- Every blob is found under its type and index again. -/
theorem getBlob_reloaded (d₀ : PropertyData) (hd : d.Valid) (horder : order.Perm d.blobs) (type : XsdType) (idx : Nat) :
    (reloaded d₀ d order).getBlob type idx = d.getBlob type idx := by
  rw [getBlob, getBlob, lookup_reloaded d₀ hd horder]
  cases htable : d.blobs.lookup type with
  | none => rfl
  | some t =>
    exact (hd.table _ (Assoc.mem_of_lookup htable)).get_reloaded idx

end PropertyData
end GengoDB
