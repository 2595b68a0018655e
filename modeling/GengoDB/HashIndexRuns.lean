/-
A table with a hash index is a list of batches.

The state of the table, of the index and of the three files is described by a
`Store`: the batches, those that are saved, and whether the files agree. Loading
and writing do not change it (`Kept`), and the operations of the catalog do what
the ones of the store do as long as they are allowed (`Refines.step`).
-/
import GengoDB.HashIndexFacts
import Mathlib.Data.List.TakeWhile

namespace GengoDB.HashIndex

open List Option

variable {α : Type} (env : Env α) {db db' : Db α}

/-! ## Batches -/

def rowsIn (batches : List (Batch α)) : List α := batches.flatMap (·.rows)

theorem rowsIn_append (a b : List (Batch α)) : rowsIn (a ++ b) = rowsIn a ++ rowsIn b := flatMap_append

theorem rowsOf_eq (chunks : List (TableChunk α)) : rowsOf chunks = rowsIn (chunks.map (·.data)) := by
  rw [rowsOf, rowsIn, flatMap_map]

theorem rowsIn_readBatch (batches : List (Batch α)) : rowsIn (batches.map env.readBatch) = rowsIn batches := by
  rw [rowsIn, flatMap_map]
  exact flatMap_congr fun b _ => env.rows_readBatch b

/-- A chunk can be made of the batch. -/
def Batch.fits (b : Batch α) : Bool := b.validity || decide (b.rows.length ≤ maxNullCount)

theorem make_of_fits {data : Batch α} (h : data.fits) (startRowId : ℕ) :
    TableChunk.make data startRowId = .ok ⟨data, startRowId⟩ := by
  rw [TableChunk.make, if_neg]
  simp only [Batch.fits, Bool.or_eq_true, decide_eq_true_eq] at h
  simp only [Bool.and_eq_true, Bool.not_eq_true', decide_eq_true_eq, not_and, Nat.not_lt]
  exact fun hv => h.resolve_left (by simp [hv])

theorem make_of_not_fits {data : Batch α} (h : data.fits = false) (startRowId : ℕ) :
    ∃ e, TableChunk.make data startRowId = .error e := by
  refine ⟨_, if_pos ?_⟩
  simp only [Batch.fits, Bool.or_eq_false_iff, decide_eq_false_iff_not, Nat.not_le] at h
  simp [h.1, h.2]

/-- A batch that does not fit has rows. -/
theorem rows_ne_nil_of_not_fits {b : Batch α} (h : b.fits = false) : b.rows ≠ [] := by
  intro hrows
  simp [Batch.fits, hrows] at h

/-! ## What the state holds -/

def fileBatches (disk : Disk α) : List (Batch α) := disk.table.getD []

def fileEntries (disk : Disk α) : List Entry := disk.index.getD []

/-- The batches of the table, loaded or not. -/
def contents (db : Db α) : List (Batch α) :=
  if db.table.loaded then db.table.tableData.map (·.data) else (fileBatches db.disk).map env.readBatch

/-- The entries of the index, loaded or not. -/
def entries (db : Db α) : List Entry :=
  if db.index.loaded then db.index.buffer else db.index.buffer ++ fileEntries db.disk

/-- The index has a table, or will have one when it is loaded. -/
def Ready (db : Db α) : Prop := db.index.ht ≠ none ∨ db.index.loaded = false ∧ db.disk.index ≠ none

/-- What holds of every state. -/
structure Sane (db : Db α) : Prop where
  aligned : Aligned 0 db.table.tableData
  unloaded : db.table.loaded = false → db.table.tableData = []
  readable : db.table.loaded = false → ∀ b ∈ fileBatches db.disk, (env.readBatch b).fits
  built : db.index.ht = none ∧ db.index.buffer = [] ∨ db.index.ht = some (buildTable db.index.buffer)

/-- Loading and writing do not change what the state holds. -/
structure Kept (db db' : Db α) : Prop where
  sane : Sane env db'
  shouldPersist : db'.shouldPersist = db.shouldPersist
  tablePersist : db'.table.persist = db.table.persist
  indexPersist : db'.index.persist = db.index.persist
  sample : db'.table.sample = db.table.sample
  numRows : db'.table.numRows = db.table.numRows
  contents : contents env db' = contents env db
  entries : entries db' = entries db
  ready : Ready db' ↔ Ready db

variable {env}

theorem Kept.refl (h : Sane env db) : Kept env db db := ⟨h, rfl, rfl, rfl, rfl, rfl, rfl, rfl, .rfl⟩

theorem Kept.trans {a b c : Db α} (h : Kept env a b) (h' : Kept env b c) : Kept env a c where
  sane := h'.sane
  shouldPersist := h'.shouldPersist.trans h.shouldPersist
  tablePersist := h'.tablePersist.trans h.tablePersist
  indexPersist := h'.indexPersist.trans h.indexPersist
  sample := h'.sample.trans h.sample
  numRows := h'.numRows.trans h.numRows
  contents := h'.contents.trans h.contents
  entries := h'.entries.trans h.entries
  ready := h'.ready.trans h.ready

variable (env) in
theorem contents_loaded (h : db.table.loaded) : contents env db = db.table.tableData.map (·.data) := if_pos h

/-! ## The table -/

variable (env) in
theorem loadTable_spec {batches : List (Batch α)} (start : ℕ) (h : ∀ b ∈ batches, (env.readBatch b).fits) :
    ∃ chunks, loadTable env batches start = .ok chunks ∧ Aligned start chunks
      ∧ chunks.map (·.data) = batches.map env.readBatch := by
  induction batches generalizing start with
  | nil => exact ⟨[], rfl, trivial, rfl⟩
  | cons batch batches ih =>
    obtain ⟨hbatch, hrest⟩ := forall_mem_cons.1 h
    obtain ⟨chunks, hload, haligned, hdata⟩ := ih (start + (env.readBatch batch).rows.length) hrest
    refine ⟨⟨env.readBatch batch, start⟩ :: chunks, ?_, ⟨rfl, haligned⟩, ?_⟩
    · rw [loadTable, make_of_fits hbatch]
      rw [hload]
      rfl
    · rw [map_cons, map_cons, hdata]

variable (env) in
theorem loadTable_fails {batches : List (Batch α)} (start : ℕ) (h : ∃ b ∈ batches, (env.readBatch b).fits = false) :
    ∃ e, loadTable env batches start = .error e := by
  induction batches generalizing start with
  | nil => obtain ⟨b, hb, -⟩ := h; cases hb
  | cons batch batches ih =>
    rw [loadTable]
    cases hfits : (env.readBatch batch).fits with
    | false =>
      obtain ⟨e, he⟩ := make_of_not_fits hfits start
      exact ⟨e, by rw [he]; rfl⟩
    | true =>
      obtain ⟨b, hb, hbad⟩ := h
      have hmem : b ∈ batches := (mem_cons.1 hb).resolve_left fun he => by rw [he, hfits] at hbad; cases hbad
      obtain ⟨e, he⟩ := ih (start + (env.readBatch batch).rows.length) ⟨b, hmem, hbad⟩
      exact ⟨e, by rw [make_of_fits hfits, he]; rfl⟩

theorem tableEnsureLoaded_spec (h : Sane env db) : ∃ db', tableEnsureLoaded env db = (db', none) ∧ Kept env db db'
    ∧ db'.table.loaded ∧ db'.disk = db.disk ∧ db'.index = db.index := by
  rw [tableEnsureLoaded]
  split
  · next hloaded => exact ⟨db, rfl, .refl h, hloaded, rfl, rfl⟩
  · next hloaded =>
    have hcontents : contents env db = (fileBatches db.disk).map env.readBatch := if_neg hloaded
    have hfalse := Bool.eq_false_iff.mpr hloaded
    dsimp only
    split
    · next hfile =>
      have hempty : db.table.tableData.map (·.data) = contents env db := by
        rw [h.unloaded hfalse, hcontents, fileBatches, hfile]
        rfl
      exact ⟨_, rfl, ⟨⟨h.aligned, nofun, nofun, h.built⟩, rfl, rfl, rfl, rfl, rfl, hempty, rfl, .rfl⟩, rfl, rfl, rfl⟩
    · next batches hfile =>
      have hfits : ∀ b ∈ batches, (env.readBatch b).fits := by
        have hr := h.readable hfalse
        rwa [fileBatches, hfile, getD_some] at hr
      obtain ⟨chunks, hload, haligned, hdata⟩ := loadTable_spec env 0 hfits
      have hread : chunks.map (·.data) = contents env db := by rw [hdata, hcontents, fileBatches, hfile]; rfl
      rw [hload]
      exact ⟨_, rfl, ⟨⟨haligned, nofun, nofun, h.built⟩, rfl, rfl, rfl, rfl, rfl, hread, rfl, .rfl⟩, rfl, rfl, rfl⟩

theorem tableFlush_spec (h : Sane env db) : ∃ db', tableFlush env db = (db', none) ∧ Kept env db db'
    ∧ db'.disk.index = db.disk.index ∧ db'.disk.catalog = db.disk.catalog
    ∧ fileBatches db'.disk = if db.table.persist then contents env db else fileBatches db.disk := by
  rw [tableFlush]
  cases hpersist : db.table.persist with
  | false => exact ⟨db, rfl, .refl h, rfl, rfl, rfl⟩
  | true =>
    obtain ⟨db1, hload, hkept, hloaded, hdisk, hindex⟩ := tableEnsureLoaded_spec h
    have hcontents : contents env db = db1.table.tableData.map (·.data) :=
      hkept.contents.symm.trans (contents_loaded env hloaded)
    have hsane := hkept.sane
    rw [Bool.not_true, hload]
    refine ⟨_, rfl, hkept.trans ⟨⟨hsane.aligned, hsane.unloaded,
      fun hfalse => absurd (hfalse.symm.trans hloaded) Bool.false_ne_true, hsane.built⟩, rfl, rfl, rfl, rfl, rfl,
      (if_pos hloaded).trans (if_pos hloaded).symm, rfl, .rfl⟩, ?_, ?_, ?_⟩
    · exact (congrArg Disk.index hdisk : db1.disk.index = db.disk.index)
    · exact (congrArg Disk.catalog hdisk : db1.disk.catalog = db.disk.catalog)
    · rw [hcontents]
      rfl

/-- **The loop of `append`** takes the batches before the first that does not
fit. -/
theorem pushBatches_spec (batches : List (Batch α)) (db : Db α) (haligned : Aligned 0 db.table.tableData)
    (hnum : db.table.numRows = (rowsOf db.table.tableData).length) :
    ∃ table err, pushBatches true batches db = ({ db with table := table }, err)
      ∧ (err = none ∧ batches.all Batch.fits ∨ (∃ e, err = some (.exception e)) ∧ batches.all Batch.fits = false)
      ∧ Aligned 0 table.tableData
      ∧ table.tableData.map (·.data) = db.table.tableData.map (·.data) ++ batches.takeWhile Batch.fits
      ∧ table.numRows = (rowsOf table.tableData).length ∧ table.loaded = db.table.loaded
      ∧ table.persist = db.table.persist ∧ table.sample = db.table.sample := by
  induction batches generalizing db with
  | nil => exact ⟨db.table, none, rfl, .inl ⟨rfl, rfl⟩, haligned, (append_nil _).symm, hnum, rfl, rfl, rfl⟩
  | cons batch batches ih =>
    rw [pushBatches, if_pos rfl]
    cases hfits : batch.fits with
    | false =>
      obtain ⟨e, he⟩ := make_of_not_fits hfits db.table.numRows
      rw [he]
      refine ⟨db.table, _, rfl, .inr ⟨⟨e, rfl⟩, by rw [all_cons, hfits]; rfl⟩, haligned, ?_, hnum, rfl, rfl, rfl⟩
      rw [takeWhile_cons, hfits]
      exact (append_nil _).symm
    | true =>
      have haligned' := haligned.append_singleton batch
      rw [Nat.zero_add, ← hnum] at haligned'
      have hrows : rowsOf (db.table.tableData ++ [⟨batch, db.table.numRows⟩]) =
          rowsOf db.table.tableData ++ batch.rows := by
        simp [rowsOf]
      rw [make_of_fits hfits]
      obtain ⟨table, err, hpush, herr, haligned'', hdata, hnum', hloaded, hpersist, hsample⟩ :=
        ih { db with table := { db.table with
          tableData := db.table.tableData ++ [⟨batch, db.table.numRows⟩]
          numRows := db.table.numRows + batch.rows.length } } haligned' (by rw [hrows, length_append, hnum])
      refine ⟨table, err, hpush, ?_, haligned'', ?_, hnum', hloaded, hpersist, hsample⟩
      · rw [all_cons, hfits]
        exact herr
      · rw [hdata, takeWhile_cons, hfits]
        simp

/-! ## The index -/

theorem indexEnsureLoaded_spec (h : Sane env db) : Kept env db (indexEnsureLoaded db)
    ∧ (indexEnsureLoaded db).index.loaded ∧ (indexEnsureLoaded db).disk = db.disk := by
  rw [indexEnsureLoaded]
  split
  · next hloaded => exact ⟨.refl h, hloaded, rfl⟩
  · next hloaded =>
    have hentries : entries db = db.index.buffer ++ fileEntries db.disk := if_neg hloaded
    split
    · next file hfile =>
      refine ⟨⟨⟨h.aligned, h.unloaded, h.readable, .inr rfl⟩, rfl, rfl, rfl, rfl, rfl, rfl, ?_, ?_⟩, rfl, rfl⟩
      · rw [hentries, fileEntries, hfile]
        rfl
      · refine iff_of_true (.inl (some_ne_none _)) (.inr ⟨Bool.eq_false_iff.mpr hloaded, ?_⟩)
        rw [hfile]
        exact some_ne_none _
    · next hfile =>
      refine ⟨⟨⟨h.aligned, h.unloaded, h.readable, h.built⟩, rfl, rfl, rfl, rfl, rfl, rfl, ?_, ?_⟩, rfl, rfl⟩
      · rw [hentries, fileEntries, hfile, getD_none, append_nil]
        rfl
      · exact or_congr .rfl (iff_of_false (fun hr => Bool.noConfusion hr.1) fun hr => hr.2 hfile)

theorem indexFlush_spec (h : Sane env db) : Kept env db (indexFlush db)
    ∧ (indexFlush db).disk.table = db.disk.table ∧ (indexFlush db).disk.catalog = db.disk.catalog
    ∧ fileEntries (indexFlush db).disk = (if db.index.persist then entries db else fileEntries db.disk)
    ∧ (db.index.persist ∨ db.disk.index ≠ none → (indexFlush db).disk.index ≠ none) := by
  rw [indexFlush]
  split
  · obtain ⟨hkept, hloaded, hdisk⟩ := indexEnsureLoaded_spec h
    have hentries : entries db = (indexEnsureLoaded db).index.buffer := hkept.entries.symm.trans (if_pos hloaded)
    have hsane := hkept.sane
    have hunread : ¬ (indexEnsureLoaded db).index.loaded = false := fun hr => by rw [hloaded] at hr; cases hr
    refine ⟨hkept.trans ⟨⟨hsane.aligned, hsane.unloaded, hsane.readable, hsane.built⟩, rfl, rfl, rfl, rfl, rfl, rfl,
      (if_pos hloaded).trans (if_pos hloaded).symm, ?_⟩, ?_, ?_, hentries.symm, fun _ => some_ne_none _⟩
    · exact or_congr .rfl (iff_of_false (fun hr => hunread hr.1) fun hr => hunread hr.1)
    · exact (congrArg Disk.table hdisk : (indexEnsureLoaded db).disk.table = db.disk.table)
    · exact (congrArg Disk.catalog hdisk : (indexEnsureLoaded db).disk.catalog = db.disk.catalog)
  · next hpersist =>
    exact ⟨.refl h, rfl, rfl, rfl, fun hor => hor.resolve_left hpersist⟩

/-! ## The rows and what is saved of them -/

/-- What a table with an index is: its batches, those in the file, whether the
index file has rows that the table file lacks, and the number of rows in the
catalog; whether persistence is on for the table and for the index, and whether
there is a sample and something to look up in. -/
structure Store (α : Type) where
  on : Bool
  indexOn : Bool
  built : Bool
  sampled : Bool
  batches : List (Batch α)
  saved : List (Batch α)
  stale : Bool
  counted : Option ℕ

namespace Store

def empty : Store α := ⟨false, false, false, true, [], [], false, none⟩

variable (s : Store α)

def save : Store α := if s.on then { s with saved := s.batches, counted := some (rowsIn s.batches).length } else s

def setPersist (value : Bool) : Store α :=
  if value then { s with on := true, indexOn := true, saved := s.batches, stale := false }
  else { s with on := false, indexOn := false }

def append (batches : List (Batch α)) : Store α :=
  { s with
    batches := s.batches ++ batches
    sampled := !(rowsIn (s.batches ++ batches)).isEmpty
    saved := if s.on then s.batches ++ batches else s.saved }

/-- Nothing is added with another schema. The batches before one that does not
fit stay, and an index that is persistent without the table writes its rows
alone. -/
def insert (t : ArrowTable α) : Store α :=
  if !t.schemaEquals && !t.batches.isEmpty then s
  else if !t.batches.all Batch.fits then { s with batches := s.batches ++ t.batches.takeWhile Batch.fits }
  else if t.rows.isEmpty then s.append t.batches
  else save { s.append t.batches with built := true, stale := s.stale || (s.indexOn && !s.on) }

def created (shouldPersist : Bool) : Store α := (empty.setPersist shouldPersist).save

variable (env) in
/-- What was saved, in a catalog that was opened. -/
def opened (indexPersist : Bool) : Store α :=
  { s with
    on := false, indexOn := indexPersist, built := true, sampled := true
    batches := s.saved.map env.readBatch }

variable (env) in
/-- `none` is a catalog without the table. -/
def step : Op α → Option (Store α)
  | .insert t => some (s.insert t)
  | .persist => some s.save
  | .setPersist value => some (s.setPersist value)
  | .load => some s
  | .reload _ indexPersist => s.save.counted.map fun _ => s.save.opened env indexPersist

/-- The catalog can be written. -/
def canPersist : Bool := !s.on || s.sampled

variable (env) in
/-- What is read back: the files have the same rows, the catalog has their
number, and every batch fits. -/
def canReload : Bool :=
  !s.stale && decide (s.counted = some (rowsIn s.saved).length) && s.saved.all fun b => (env.readBatch b).fits

variable (env) in
def allows : Op α → Bool
  | .insert t => !t.schemaEquals || t.batches.all Batch.fits || (rowsIn (t.batches.takeWhile Batch.fits)).isEmpty
  | .persist => s.canPersist
  | .reload _ _ => s.canPersist && (s.save.counted.isNone || s.save.canReload env)
  | _ => true

variable (env) in
/-- Every operation is allowed, up to the end of the table. -/
def Allowed (s : Store α) : List (Op α) → Bool
  | [] => true
  | op :: ops => s.allows env op && (s.step env op).all fun s => s.Allowed ops

end Store

variable (env) in
/-- The state `db` has the batches. -/
structure Core (db : Db α) (batches : List (Batch α)) : Prop where
  sane : Sane env db
  contents : contents env db = batches
  numRows : db.table.numRows = (rowsIn batches).length
  entries : (entries db).Perm (indexed env (rowsIn batches) 0)

variable {batches : List (Batch α)}

theorem Core.kept (h : Core env db batches) (hk : Kept env db db') : Core env db' batches :=
  ⟨hk.sane, hk.contents.trans h.contents, hk.numRows.trans h.numRows, by rw [hk.entries]; exact h.entries⟩

variable (env) in
/-- The files have what the store has saved. A stale index file has the id of a
row behind those of the table. -/
structure Saved (disk : Disk α) (s : Store α) : Prop where
  table : fileBatches disk = s.saved
  index : s.stale = false → (fileEntries disk).Perm (indexed env (rowsIn s.saved) 0)
  behind : s.stale = true → ∃ e ∈ fileEntries disk, (rowsIn s.saved).length ≤ e.rowId
  catalog : disk.catalog = s.counted
  written : s.counted ≠ none → disk.index ≠ none

variable (env) in
/-- The state `db` is that of the store. -/
structure Refines (s : Store α) (db : Db α) : Prop where
  core : Core env db s.batches
  files : Saved env db.disk s
  shouldPersist : db.shouldPersist = s.on
  tablePersist : db.table.persist = s.on
  indexPersist : db.index.persist = s.indexOn
  sample : db.table.sample = s.sampled
  ready : Ready db ↔ s.built
  synced : s.on → rowsIn s.saved = rowsIn s.batches ∧ s.stale = false ∧ s.indexOn
  fewer : (rowsIn s.saved).length ≤ (rowsIn s.batches).length

variable {s : Store α}

/-! ## The operations -/

/-- The table and then the index are written. -/
theorem Core.flush (h : Core env db batches) (hpersist : db.table.persist) :
    ∃ db1 db2, tableFlush env db = (db1, none) ∧ db1.index.persist = db.index.persist
      ∧ indexFlush { db1 with index := { db1.index with persist := true } } = db2 ∧ Core env db2 batches
      ∧ fileBatches db2.disk = batches ∧ (fileEntries db2.disk).Perm (indexed env (rowsIn batches) 0)
      ∧ db2.disk.catalog = db.disk.catalog ∧ db2.disk.index ≠ none ∧ db2.shouldPersist = db.shouldPersist
      ∧ db2.table.persist ∧ db2.index.persist ∧ db2.table.sample = db.table.sample ∧ (Ready db2 ↔ Ready db) := by
  obtain ⟨db1, hflush, hkept1, -, hcatalog₁, hfile1⟩ := tableFlush_spec h.sane
  have hcore1 := h.kept hkept1
  have hsane := hkept1.sane
  have hsane1 : Sane env { db1 with index := { db1.index with persist := true } } :=
    ⟨hsane.aligned, hsane.unloaded, hsane.readable, hsane.built⟩
  have hcore : Core env { db1 with index := { db1.index with persist := true } } batches :=
    ⟨hsane1, hcore1.contents, hcore1.numRows, hcore1.entries⟩
  obtain ⟨hkept2, htable2, hcatalog₂, hentries₂, hindex2⟩ := indexFlush_spec hsane1
  rw [hpersist, h.contents] at hfile1
  refine ⟨db1, _, hflush, hkept1.indexPersist, rfl, hcore.kept hkept2, ?_, ?_, hcatalog₂.trans hcatalog₁,
    hindex2 (.inl rfl), hkept2.shouldPersist.trans hkept1.shouldPersist,
    hkept2.tablePersist.trans (hkept1.tablePersist.trans hpersist), hkept2.indexPersist,
    hkept2.sample.trans hkept1.sample, hkept2.ready.trans hkept1.ready⟩
  · rw [fileBatches, htable2]
    exact hfile1
  · rw [hentries₂]
    exact hcore1.entries

section

variable (h : Refines env s db)
include h

/-- `Catalog::persist` up to the catalog file. -/
theorem Refines.flushed (hon : s.on) : ∃ db1 db2, tableFlush env db = (db1, none) ∧ indexFlush db1 = db2
    ∧ db2.table.sample = s.sampled ∧ Refines env { s with saved := s.batches } db2 ∧ db2.disk.index ≠ none := by
  obtain ⟨db1, db2, hflush, hpersist₁, hindex, hcore, hfile, hentries, hcatalog, hwritten, hshould, htable, hpersist₂,
    hsample, hready⟩ := h.core.flush (h.tablePersist.trans hon)
  obtain ⟨-, hstale, hindexOn⟩ := h.synced hon
  -- the index has persistence on already
  have hsame : ({ db1 with index := { db1.index with persist := true } } : Db α) = db1 := by
    rw [show true = db1.index.persist by rw [hpersist₁, h.indexPersist, hindexOn]]
  rw [hsame] at hindex
  refine ⟨db1, db2, hflush, hindex, hsample.trans h.sample, ?_, hwritten⟩
  exact {
    core := hcore
    files := ⟨hfile, fun _ => hentries, fun hs => absurd (hstale.symm.trans hs) Bool.false_ne_true,
      hcatalog.trans h.files.catalog, fun _ => hwritten⟩
    shouldPersist := hshould.trans h.shouldPersist
    tablePersist := htable.trans hon.symm
    indexPersist := hpersist₂.trans hindexOn.symm
    sample := hsample.trans h.sample
    ready := hready.trans h.ready
    synced := fun _ => ⟨rfl, hstale, hindexOn⟩
    fewer := Nat.le_refl _ }

theorem Refines.catalogPersist (hcan : s.canPersist) :
    ∃ db', catalogPersist env db = (db', none) ∧ Refines env s.save db' := by
  rw [HashIndex.catalogPersist, Store.save, h.shouldPersist]
  by_cases hon : s.on
  · have hsampled : s.sampled := by simpa [Store.canPersist, hon] using hcan
    obtain ⟨db1, db2, hflush, hindex, hsample, h2, hwritten⟩ := h.flushed hon
    have hthere : db2.table.sample := hsample.trans hsampled
    rw [if_pos hon, if_pos hon, hflush]
    simp only [andThen, hindex, hthere, if_true]
    refine ⟨_, rfl, ?_⟩
    have hsane := h2.core.sane
    exact {
      core := ⟨⟨hsane.aligned, hsane.unloaded, hsane.readable, hsane.built⟩, h2.core.contents, h2.core.numRows,
        h2.core.entries⟩
      files := ⟨h2.files.table, h2.files.index, h2.files.behind, congrArg some h2.core.numRows, fun _ => hwritten⟩
      shouldPersist := h2.shouldPersist
      tablePersist := h2.tablePersist
      indexPersist := h2.indexPersist
      sample := h2.sample
      ready := h2.ready
      synced := h2.synced
      fewer := h2.fewer }
  · rw [if_neg hon, if_neg hon]
    exact ⟨db, rfl, h⟩

/-- Without a sample the catalog is not written. -/
theorem Refines.catalogPersist_crash (hcan : s.canPersist = false) :
    ∃ db', HashIndex.catalogPersist env db = (db', some .crash) := by
  simp only [Store.canPersist, Bool.or_eq_false_iff, Bool.not_eq_false'] at hcan
  obtain ⟨db1, db2, hflush, hindex, hsample, -⟩ := h.flushed hcan.1
  rw [HashIndex.catalogPersist, h.shouldPersist, if_pos hcan.1, hflush]
  simp only [andThen, hindex, hsample, hcan.2]
  exact ⟨_, rfl⟩

theorem Refines.setShouldPersist (value : Bool) :
    ∃ db', setShouldPersist env value db = (db', none) ∧ Refines env (s.setPersist value) db' := by
  have hsane := h.core.sane
  cases value with
  | false =>
    refine ⟨_, rfl, ?_⟩
    exact {
      core := ⟨⟨hsane.aligned, hsane.unloaded, hsane.readable, hsane.built⟩, h.core.contents, h.core.numRows,
        h.core.entries⟩
      files := ⟨h.files.table, h.files.index, h.files.behind, h.files.catalog, h.files.written⟩
      shouldPersist := rfl
      tablePersist := rfl
      indexPersist := rfl
      sample := h.sample
      ready := h.ready
      synced := fun hfalse => Bool.noConfusion hfalse
      fewer := h.fewer }
  | true =>
    have hcore : Core env { db with shouldPersist := true, table := { db.table with persist := true } } s.batches :=
      ⟨⟨hsane.aligned, hsane.unloaded, hsane.readable, hsane.built⟩, h.core.contents, h.core.numRows, h.core.entries⟩
    obtain ⟨db1, db2, hflush, -, hindex, hcore2, hfile, hentries, hcatalog, hwritten, hshould, htable, hpersist, hsample,
      hready⟩ := hcore.flush rfl
    refine ⟨db2, ?_, ?_⟩
    · rw [HashIndex.setShouldPersist, tableSetPersist, if_pos rfl]
      rw [hflush, ← hindex]
      rfl
    · exact {
        core := hcore2
        files := ⟨hfile, fun _ => hentries, fun hs => Bool.noConfusion hs, hcatalog.trans h.files.catalog,
          fun _ => hwritten⟩
        shouldPersist := hshould
        tablePersist := htable
        indexPersist := hpersist
        sample := hsample.trans h.sample
        ready := hready.trans h.ready
        synced := fun _ => ⟨rfl, rfl, rfl⟩
        fewer := Nat.le_refl _ }

theorem Refines.kept (hk : Kept env db db') (hdisk : db'.disk = db.disk) : Refines env s db' where
  core := h.core.kept hk
  files := hdisk ▸ h.files
  shouldPersist := hk.shouldPersist.trans h.shouldPersist
  tablePersist := hk.tablePersist.trans h.tablePersist
  indexPersist := hk.indexPersist.trans h.indexPersist
  sample := hk.sample.trans h.sample
  ready := hk.ready.trans h.ready
  synced := h.synced
  fewer := h.fewer

theorem Refines.ensureFullyLoaded : Refines env s (ensureFullyLoaded env db)
    ∧ (ensureFullyLoaded env db).table.loaded ∧ (ensureFullyLoaded env db).index.loaded := by
  obtain ⟨hkept1, hloaded₁, hdisk1⟩ := indexEnsureLoaded_spec h.core.sane
  obtain ⟨db2, hload, hkept2, hloaded₂, hdisk2, hindex2⟩ := tableEnsureLoaded_spec hkept1.sane
  rw [HashIndex.ensureFullyLoaded, hload]
  exact ⟨h.kept (hkept1.trans hkept2) (hdisk2.trans hdisk1), hloaded₂, (congrArg _ hindex2).trans hloaded₁⟩

end

variable (env) in
theorem refines_empty :
    Refines env Store.empty ⟨false, ⟨false, true, [], 0, false⟩, ⟨none, [], false, false⟩, none, none, none⟩ where
  core := ⟨⟨trivial, fun _ => rfl, fun _ _ hb => absurd hb not_mem_nil, .inl ⟨rfl, rfl⟩⟩, rfl, rfl, .nil⟩
  files := ⟨rfl, fun _ => .nil, fun hs => Bool.noConfusion hs, rfl, fun hc => absurd rfl hc⟩
  shouldPersist := rfl
  tablePersist := rfl
  indexPersist := rfl
  sample := rfl
  ready := iff_of_false (fun hr => hr.elim (fun hne => hne rfl) fun hr => hr.2 rfl) Bool.false_ne_true
  synced := fun hon => Bool.noConfusion hon
  fewer := Nat.le_refl _

variable (env) in
theorem refines_createTable (shouldPersist : Bool) :
    Refines env (Store.created shouldPersist) (createTable env shouldPersist) := by
  obtain ⟨db1, hset, h1⟩ := (refines_empty env).setShouldPersist shouldPersist
  obtain ⟨db2, hpersist, h2⟩ := h1.catalogPersist (by cases shouldPersist <;> rfl)
  have hset' : HashIndex.setShouldPersist env shouldPersist
      ⟨shouldPersist, ⟨false, true, [], 0, false⟩, ⟨none, [], false, false⟩, none, none, none⟩ = (db1, none) := hset
  rw [createTable, hset', andThen, hpersist]
  exact h2

/-! ## Inserts -/

theorem createSample_eq (chunks : List (TableChunk α)) :
    createSample chunks = !(rowsIn (chunks.map (·.data))).isEmpty := by
  have hsum : (chunks.map (·.numRows)).sum = (rowsOf chunks).length := by
    rw [rowsOf, length_flatMap]
    rfl
  rw [createSample, hsum, rowsOf_eq]
  cases rowsIn (chunks.map (·.data)) <;> simp

/-- New entries, whether the old ones are loaded or not. -/
theorem entries_rawBuild (db : Db α) (new : List Entry) :
    (entries (rawBuild { db with index := { db.index with buffer := db.index.buffer ++ new } })).Perm
      (entries db ++ new) := by
  cases hloaded : db.index.loaded with
  | true => exact .of_eq (by simp only [entries, rawBuild, hloaded, if_true])
  | false =>
    simp only [entries, rawBuild, hloaded, Bool.false_eq_true, if_false, append_assoc]
    exact perm_append_comm.append_left _

/-- The rows are in the table; the index gets their entries. -/
theorem bulkInsert_spec {rows new : List α} (hsane : Sane env db) (hentries : (entries db).Perm (indexed env rows 0))
    (hnew : new ≠ []) :
    ∃ db', bulkInsert env rows.length new db = (db', none) ∧ Sane env db' ∧ contents env db' = contents env db
      ∧ db'.table.numRows = db.table.numRows ∧ (entries db').Perm (indexed env (rows ++ new) 0) ∧ Ready db'
      ∧ db'.shouldPersist = db.shouldPersist ∧ db'.table.persist = db.table.persist ∧ db'.index.persist = db.index.persist
      ∧ db'.table.sample = db.table.sample ∧ db'.disk.table = db.disk.table ∧ db'.disk.catalog = db.disk.catalog
      ∧ (fileEntries db'.disk).Perm (if db.index.persist then indexed env (rows ++ new) 0 else fileEntries db.disk)
      ∧ (db.disk.index ≠ none → db'.disk.index ≠ none) := by
  set added := rawBuild { db with index := { db.index with buffer := db.index.buffer ++ newEntries env rows.length new } }
  have hall : (entries added).Perm (indexed env (rows ++ new) 0) := by
    rw [indexed_append, Nat.zero_add, ← newEntries_eq env rows.length new]
    exact (entries_rawBuild db _).trans (hentries.append_right _)
  have hsane' : Sane env added := ⟨hsane.aligned, hsane.unloaded, hsane.readable, .inr rfl⟩
  obtain ⟨hkept, htable, hcatalog, hfile, hindex⟩ := indexFlush_spec hsane'
  refine ⟨indexFlush added, ?_, hkept.sane, hkept.contents, hkept.numRows, by rw [hkept.entries]; exact hall,
    hkept.ready.2 (.inl (some_ne_none _)), hkept.shouldPersist, hkept.tablePersist, hkept.indexPersist, hkept.sample,
    htable, hcatalog, ?_, fun h => hindex (.inr h)⟩
  · rw [HashIndex.bulkInsert, rawInsert, if_neg (fun hlen => hnew (length_eq_zero_iff.mp hlen)), andThen]
  · rw [hfile]
    change List.Perm (if db.index.persist then _ else _) _
    split
    · exact hall
    · exact .refl _

section

variable (h : Refines env s db)
include h

theorem Refines.tableLoaded : ∃ db', tableEnsureLoaded env db = (db', none) ∧ Refines env s db' ∧ db'.table.loaded
    ∧ db'.disk = db.disk ∧ db'.index = db.index := by
  obtain ⟨db', hload, hkept, hloaded, hdisk, hindex⟩ := tableEnsureLoaded_spec h.core.sane
  exact ⟨db', hload, h.kept hkept hdisk, hloaded, hdisk, hindex⟩

theorem Refines.numRows_eq (hloaded : db.table.loaded) : db.table.numRows = (rowsOf db.table.tableData).length := by
  rw [rowsOf_eq, ← contents_loaded env hloaded, h.core.contents]
  exact h.core.numRows

/-- A state with chunks added, and nothing else. -/
theorem Refines.pushed (hloaded : db.table.loaded) (new : List (Batch α)) :
    ∃ table err, pushBatches true new db = ({ db with table := table }, err)
      ∧ (err = none ∧ new.all Batch.fits ∨ (∃ e, err = some (.exception e)) ∧ new.all Batch.fits = false)
      ∧ Sane env { db with table := table } ∧ table.tableData.map (·.data) = s.batches ++ new.takeWhile Batch.fits
      ∧ table.numRows = (rowsIn (s.batches ++ new.takeWhile Batch.fits)).length ∧ table.loaded
      ∧ table.persist = s.on ∧ table.sample = s.sampled := by
  obtain ⟨table, err, hpush, herr, haligned, hdata, hnum, hloaded', hpersist, hsample⟩ :=
    pushBatches_spec new db h.core.sane.aligned (h.numRows_eq hloaded)
  rw [hloaded] at hloaded'
  rw [← contents_loaded env hloaded, h.core.contents] at hdata
  rw [rowsOf_eq, hdata] at hnum
  refine ⟨table, err, hpush, herr, ⟨haligned, ?_, ?_, h.core.sane.built⟩, hdata, hnum, hloaded',
    hpersist.trans h.tablePersist, hsample.trans h.sample⟩
  · exact fun hfalse => absurd (hfalse.symm.trans hloaded') Bool.false_ne_true
  · exact fun hfalse => absurd (hfalse.symm.trans hloaded') Bool.false_ne_true

/-- **A table that is appended**, before the index gets to know. -/
theorem Refines.appended {t : ArrowTable α} (hschema : t.schemaEquals = true ∨ t.batches = [])
    (hfits : t.batches.all Batch.fits) :
    ∃ db', tableAppend env t db = (db', none) ∧ Sane env db' ∧ contents env db' = s.batches ++ t.batches
      ∧ db'.table.numRows = (rowsIn (s.batches ++ t.batches)).length
      ∧ (entries db').Perm (indexed env (rowsIn s.batches) 0) ∧ fileBatches db'.disk = (s.append t.batches).saved
      ∧ db'.disk.index = db.disk.index ∧ db'.disk.catalog = db.disk.catalog ∧ db'.shouldPersist = s.on
      ∧ db'.table.persist = s.on ∧ db'.index.persist = s.indexOn ∧ db'.table.sample = (s.append t.batches).sampled
      ∧ (Ready db' ↔ s.built) := by
  obtain ⟨db1, hload, h1, hloaded, hdisk, hindex⟩ := h.tableLoaded
  have hsame : pushBatches t.schemaEquals t.batches db1 = pushBatches true t.batches db1 := by
    rcases hschema with hschema | hschema
    · rw [hschema]
    · rw [hschema]
      rfl
  have htake : t.batches.takeWhile Batch.fits = t.batches :=
    takeWhile_eq_self_iff.2 fun b hb => all_eq_true.1 hfits b hb
  obtain ⟨table, err, hpush, herr, hsane, hdata, hnum, hloaded', hpersist, -⟩ := h1.pushed hloaded t.batches
  rw [htake] at hdata hnum
  obtain ⟨rfl, -⟩ := herr.resolve_right fun hbad => by rw [hfits] at hbad; cases hbad.2
  set added : Db α := { db1 with table := { table with sample := createSample table.tableData } }
  have hsane2 : Sane env added := ⟨hsane.aligned, hsane.unloaded, hsane.readable, hsane.built⟩
  have hcontents : contents env added = s.batches ++ t.batches := (contents_loaded env hloaded').trans hdata
  obtain ⟨db', hflush, hkept, hindex', hcatalog, hfile⟩ := tableFlush_spec hsane2
  refine ⟨db', ?_, hkept.sane, hkept.contents.trans hcontents, hkept.numRows.trans hnum, ?_, ?_, ?_, ?_,
    hkept.shouldPersist.trans h1.shouldPersist, hkept.tablePersist.trans hpersist,
    hkept.indexPersist.trans h1.indexPersist, hkept.sample.trans ?_, hkept.ready.trans h1.ready⟩
  · rw [tableAppend, hload, andThen, hsame, hpush, andThen]
    exact hflush
  · rw [hkept.entries]
    exact h1.core.entries
  · have hon : added.table.persist = s.on := hpersist
    rw [hfile, hon, hcontents, show added.disk = db.disk from hdisk, h.files.table]
    rfl
  · rw [hindex', ← hdisk]
  · rw [hcatalog, ← hdisk]
  · show createSample table.tableData = _
    rw [createSample_eq, hdata]
    rfl

/-- Without rows the index throws. -/
theorem Refines.insert_nil {t : ArrowTable α} (hschema : t.schemaEquals = true ∨ t.batches = [])
    (hfits : t.batches.all Batch.fits) (hrows : t.rows = []) :
    ∃ db' e, appendToTable env t db = (db', some (.exception e)) ∧ Refines env (s.append t.batches) db' := by
  obtain ⟨db', happend, hsane, hcontents, hnum, hentries, hfile, hindex, hcatalog, hshould, htable, hipersist, hsample,
    hready⟩ := h.appended hschema hfits
  have hnone : rowsIn (s.batches ++ t.batches) = rowsIn s.batches := by
    rw [rowsIn_append, show rowsIn t.batches = [] from hrows, append_nil]
  have hsaved : rowsIn (s.append t.batches).saved = rowsIn s.saved := by
    rw [Store.append]
    dsimp only
    split
    · next hon => rw [hnone, (h.synced hon).1]
    · rfl
  refine ⟨db', "empty table", ?_, ?_⟩
  · rw [appendToTable, happend, hrows]
    rfl
  · exact {
      core := ⟨hsane, hcontents, hnum, by rw [show (s.append t.batches).batches = s.batches ++ t.batches from rfl, hnone]; exact hentries⟩
      files := ⟨hfile, fun hs => by rw [fileEntries, hindex, hsaved]; exact h.files.index hs,
        fun hs => by rw [fileEntries, hindex, hsaved]; exact h.files.behind hs, hcatalog.trans h.files.catalog,
        fun hc => by rw [hindex]; exact h.files.written hc⟩
      shouldPersist := hshould
      tablePersist := htable
      indexPersist := hipersist
      sample := hsample
      ready := hready
      synced := fun hon => ⟨hsaved.trans ((h.synced hon).1.trans hnone.symm), (h.synced hon).2⟩
      fewer := by
        rw [hsaved, show (s.append t.batches).batches = s.batches ++ t.batches from rfl, hnone]
        exact h.fewer }

/-- Rows get into the table and the index, and then into the catalog. -/
theorem Refines.insert_rows {t : ArrowTable α} (hschema : t.schemaEquals = true ∨ t.batches = [])
    (hfits : t.batches.all Batch.fits) (hrows : t.rows ≠ []) :
    ∃ db', appendToTable env t db = (db', none) ∧ Refines env
      (Store.save { s.append t.batches with built := true, stale := s.stale || (s.indexOn && !s.on) }) db' := by
  obtain ⟨db1, happend, hsane, hcontents, hnum, hentries, hfile, hindex, hcatalog, hshould, htable, hipersist, hsample,
    hready⟩ := h.appended hschema hfits
  obtain ⟨db2, hbulk, hsane2, hcontents₂, hnum2, hentries₂, hready2, hshould₂, htable2, hipersist₂, hsample2, hfile2,
    hcatalog₂, hfentries₂, hwritten⟩ := bulkInsert_spec hsane hentries hrows
  have hall : rowsIn (s.batches ++ t.batches) = rowsIn s.batches ++ t.rows := rowsIn_append _ _
  have hold : fileEntries db1.disk = fileEntries db.disk := by rw [fileEntries, hindex, fileEntries]
  rw [hipersist, hold] at hfentries₂
  have hstate : Refines env
      { s.append t.batches with built := true, stale := s.stale || (s.indexOn && !s.on) } db2 := by
    refine ⟨⟨hsane2, hcontents₂.trans hcontents, hnum2.trans hnum, by
      rw [show (s.append t.batches).batches = s.batches ++ t.batches from rfl, hall]; exact hentries₂⟩,
      ⟨by rw [fileBatches, hfile2]; exact hfile, fun hs => ?_, fun hs => ?_,
        hcatalog₂.trans (hcatalog.trans h.files.catalog), fun hc => hwritten (by rw [hindex]; exact h.files.written hc)⟩,
      hshould₂.trans hshould, htable2.trans htable, hipersist₂.trans hipersist, hsample2.trans hsample,
      iff_of_true hready2 rfl, fun hon => ?_, ?_⟩
    · -- the index file has the rows of the table file
      obtain ⟨hstale, hoff⟩ := Bool.or_eq_false_iff.1 hs
      cases hon : s.on with
      | true =>
        obtain ⟨-, -, hindexOn⟩ := h.synced hon
        rw [hindexOn, if_pos rfl, ← hall] at hfentries₂
        simpa only [Store.append, hon, if_true] using hfentries₂
      | false =>
        rw [hon, Bool.not_false, Bool.and_true] at hoff
        rw [hoff] at hfentries₂
        simp only [Store.append, hon, Bool.false_eq_true, if_false] at hfentries₂ ⊢
        exact hfentries₂.trans (h.files.index hstale)
    · -- it has a row more
      have hon : s.on = false := by
        by_contra hon
        rw [Bool.not_eq_false] at hon
        obtain ⟨-, hstale, -⟩ := h.synced hon
        simp [hstale, hon] at hs
      simp only [Store.append, hon, Bool.false_eq_true, if_false]
      cases hindexOn : s.indexOn with
      | true =>
        rw [hindexOn, if_pos rfl, indexed_append, Nat.zero_add] at hfentries₂
        obtain ⟨row, rest, hcons⟩ := exists_cons_of_ne_nil hrows
        refine ⟨⟨rowHash env row, (rowsIn s.batches).length⟩, hfentries₂.mem_iff.2 (mem_append_right _ ?_), h.fewer⟩
        rw [mem_indexed, hcons]
        exact ⟨Nat.le_refl _, row, by simp, rfl⟩
      | false =>
        rw [hindexOn] at hfentries₂ hs
        obtain ⟨e, he, hle⟩ := h.files.behind (by simpa using hs)
        exact ⟨e, hfentries₂.mem_iff.2 he, hle⟩
    · obtain ⟨-, hstale, hindexOn⟩ := h.synced hon
      have hon' : s.on = true := hon
      simp [Store.append, hon', hstale, hindexOn]
    · have hfewer := h.fewer
      cases hon : s.on <;> simp [Store.append, hon, rowsIn_append]
      omega
  have hsampled : (s.append t.batches).sampled := by
    have hne : rowsIn (s.batches ++ t.batches) ≠ [] := by rw [hall]; simp [hrows]
    simpa [Store.append] using hne
  obtain ⟨db3, hpersist, h3⟩ := hstate.catalogPersist (by rw [Store.canPersist, hsampled, Bool.or_true])
  refine ⟨db3, ?_, h3⟩
  rw [appendToTable, happend, andThen, h.core.numRows, hbulk, andThen, hpersist]

/-- A batch does not fit: the ones before it stay in the table. -/
theorem Refines.insert_failing {t : ArrowTable α} (hschema : t.schemaEquals = true)
    (hfits : t.batches.all Batch.fits = false) :
    ∃ db' e, appendToTable env t db = (db', some (.exception e)) ∧ Sane env db' ∧ db'.table.loaded
      ∧ contents env db' = s.batches ++ t.batches.takeWhile Batch.fits
      ∧ db'.table.numRows = (rowsIn (s.batches ++ t.batches.takeWhile Batch.fits)).length
      ∧ (entries db').Perm (indexed env (rowsIn s.batches) 0)
      ∧ (rowsIn (t.batches.takeWhile Batch.fits) = [] →
        Refines env { s with batches := s.batches ++ t.batches.takeWhile Batch.fits } db') := by
  obtain ⟨db1, hload, h1, hloaded, -⟩ := h.tableLoaded
  obtain ⟨table, err, hpush, herr, hsane, hdata, hnum, hloaded', hpersist, hsample⟩ := h1.pushed hloaded t.batches
  obtain ⟨⟨e, rfl⟩, -⟩ := herr.resolve_left fun hall => by rw [hfits] at hall; cases hall.2
  have hcontents : contents env { db1 with table := table } = _ := (contents_loaded env hloaded').trans hdata
  refine ⟨{ db1 with table := table }, e, ?_, hsane, hloaded', hcontents, hnum, h1.core.entries, fun hnone => ?_⟩
  · rw [appendToTable, tableAppend, hload, andThen, hschema, hpush]
    rfl
  · have hrows : rowsIn (s.batches ++ t.batches.takeWhile Batch.fits) = rowsIn s.batches := by
      rw [rowsIn_append, hnone, append_nil]
    exact {
      core := ⟨hsane, hcontents, hnum, by rw [hrows]; exact h1.core.entries⟩
      files := ⟨h1.files.table, h1.files.index, h1.files.behind, h1.files.catalog, h1.files.written⟩
      shouldPersist := h1.shouldPersist
      tablePersist := hpersist
      indexPersist := h1.indexPersist
      sample := hsample
      ready := h1.ready
      synced := fun hon => ⟨(h1.synced hon).1.trans hrows.symm, (h1.synced hon).2⟩
      fewer := by
        show _ ≤ (rowsIn (s.batches ++ t.batches.takeWhile Batch.fits)).length
        rw [hrows]
        exact h1.fewer }

theorem Refines.insert {t : ArrowTable α} (hallows : s.allows env (.insert t)) :
    ∃ db', step env db (.insert t) = .ok db' ∧ Refines env (s.insert t) db' := by
  rw [step, Store.insert]
  by_cases hother : t.schemaEquals = false ∧ t.batches ≠ []
  · obtain ⟨hschema, hne⟩ := hother
    obtain ⟨db1, hload, h1, -⟩ := h.tableLoaded
    obtain ⟨batch, batches, hbatches⟩ := exists_cons_of_ne_nil hne
    refine ⟨db1, ?_, ?_⟩
    · rw [appendToTable, tableAppend, hload, andThen, hschema, hbatches]
      rfl
    · rw [hschema, hbatches]
      exact h1
  · have hschema : t.schemaEquals = true ∨ t.batches = [] := by
      rcases Bool.eq_false_or_eq_true t.schemaEquals with htrue | hfalse
      · exact .inl htrue
      · exact .inr (not_not.1 fun hne => hother ⟨hfalse, hne⟩)
    have hsame : ¬ (!t.schemaEquals && !t.batches.isEmpty) = true := by
      rcases hschema with hschema | hschema <;> simp [hschema]
    rw [if_neg hsame]
    by_cases hfits : t.batches.all Batch.fits
    · rw [if_neg (by simpa using hfits)]
      by_cases hrows : t.rows = []
      · obtain ⟨db', e, hrun, h'⟩ := h.insert_nil hschema hfits hrows
        rw [hrun, hrows]
        exact ⟨db', rfl, h'⟩
      · obtain ⟨db', hrun, h'⟩ := h.insert_rows hschema hfits hrows
        rw [hrun, if_neg (by simpa using hrows)]
        exact ⟨db', rfl, h'⟩
    · have hnot := Bool.eq_false_iff.mpr hfits
      have hequals : t.schemaEquals = true := hschema.resolve_right fun hnil => by simp [hnil] at hnot
      have hnone : rowsIn (t.batches.takeWhile Batch.fits) = [] := by
        simpa [Store.allows, hequals, hnot] using hallows
      obtain ⟨db', e, hrun, -, -, -, -, -, h'⟩ := h.insert_failing hequals hnot
      rw [hrun, hnot]
      exact ⟨db', rfl, h' hnone⟩

/-! ## Reopening -/

end

/-- The catalog just opened, with nothing loaded. -/
def closed (disk : Disk α) (numRows : ℕ) (indexPersist : Bool) : Db α :=
  ⟨false, ⟨false, true, [], numRows, false⟩, ⟨none, [], indexPersist, false⟩, disk⟩

variable {numRows : ℕ} {eagerLoading indexPersist : Bool}

theorem Saved.closed (h : Saved env db.disk s) (hcounted : s.counted = some numRows) (hcan : s.canReload env)
    (indexPersist : Bool) : Refines env (s.opened env indexPersist) (closed db.disk numRows indexPersist) := by
  simp only [Store.canReload, Bool.and_eq_true, Bool.not_eq_true', decide_eq_true_eq, List.all_eq_true] at hcan
  obtain ⟨⟨hstale, hcount⟩, hfits⟩ := hcan
  rw [hcounted, Option.some.injEq] at hcount
  have hrows : rowsIn (s.opened env indexPersist).batches = rowsIn s.saved := rowsIn_readBatch env _
  exact {
    core := ⟨⟨trivial, fun _ => rfl, fun _ => by rw [HashIndex.closed, h.table]; exact hfits, .inl ⟨rfl, rfl⟩⟩,
      congrArg (map env.readBatch) h.table, by rw [hrows]; exact hcount, by rw [hrows]; exact h.index hstale⟩
    files := ⟨h.table, h.index, h.behind, h.catalog, h.written⟩
    shouldPersist := rfl
    tablePersist := rfl
    indexPersist := rfl
    sample := rfl
    ready := iff_of_true (.inr ⟨rfl, h.written (by rw [hcounted]; exact some_ne_none _)⟩) rfl
    synced := fun hon => Bool.noConfusion hon
    fewer := by rw [hrows]; exact Nat.le_refl _ }

theorem reload_eq (h : Refines env s db) (hcan : s.canPersist) (eagerLoading indexPersist : Bool) : ∃ db1, Refines env s.save db1
      ∧ step env db (.reload eagerLoading indexPersist) = match s.save.counted with
        | none => .error .gone
        | some numRows => .ok (if eagerLoading then ensureFullyLoaded env (closed db1.disk numRows indexPersist)
          else closed db1.disk numRows indexPersist) := by
  obtain ⟨db1, hpersist, h1⟩ := h.catalogPersist hcan
  refine ⟨db1, h1, ?_⟩
  rw [step, hpersist]
  show reopen env db1.disk eagerLoading indexPersist = _
  rw [reopen, h1.files.catalog]
  rfl

/-- What is read back is what was saved. -/
theorem Refines.reload (h : Refines env s db) (hallows : s.allows env (.reload eagerLoading indexPersist)) :
    step env db (.reload eagerLoading indexPersist) = .error .gone ∧ s.save.counted = none
      ∨ ∃ db', step env db (.reload eagerLoading indexPersist) = .ok db'
        ∧ s.save.counted ≠ none ∧ Refines env (s.save.opened env indexPersist) db' := by
  obtain ⟨hcan, hread⟩ := (Bool.and_eq_true _ _).mp hallows
  obtain ⟨db1, h1, hstep⟩ := reload_eq h hcan eagerLoading indexPersist
  rw [hstep]
  cases hcounted : s.save.counted with
  | none => exact .inl ⟨rfl, rfl⟩
  | some numRows =>
    rw [hcounted, isNone_some, Bool.false_or] at hread
    have hclosed := h1.files.closed hcounted hread indexPersist
    refine .inr ⟨_, rfl, some_ne_none _, ?_⟩
    split
    · exact hclosed.ensureFullyLoaded.1
    · exact hclosed

/-- An allowed operation. -/
theorem Refines.step (h : Refines env s db) {op : Op α} (hallows : s.allows env op) :
    HashIndex.step env db op = .error .gone ∧ s.step env op = none
      ∨ ∃ db' s', HashIndex.step env db op = .ok db' ∧ s.step env op = some s' ∧ Refines env s' db' := by
  cases op with
  | insert t =>
    obtain ⟨db', hstep, h'⟩ := h.insert hallows
    exact .inr ⟨db', _, hstep, rfl, h'⟩
  | persist =>
    obtain ⟨db', hpersist, h'⟩ := h.catalogPersist hallows
    refine .inr ⟨db', _, ?_, rfl, h'⟩
    rw [HashIndex.step, hpersist]
    rfl
  | setPersist value =>
    obtain ⟨db', hset, h'⟩ := h.setShouldPersist value
    refine .inr ⟨db', _, ?_, rfl, h'⟩
    rw [HashIndex.step, hset]
    rfl
  | load => exact .inr ⟨_, _, rfl, rfl, h.ensureFullyLoaded.1⟩
  | reload eagerLoading indexPersist =>
    rcases h.reload hallows with ⟨hstep, hcounted⟩ | ⟨db', hstep, hcounted, h'⟩
    · exact .inl ⟨hstep, by rw [Store.step, hcounted]; rfl⟩
    · obtain ⟨n, hn⟩ := ne_none_iff_exists'.1 hcounted
      exact .inr ⟨db', _, hstep, by rw [Store.step, hn]; rfl, h'⟩

end GengoDB.HashIndex
