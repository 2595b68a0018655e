/-
A table and its hash index over their lifetime (`LingoDBTable`,
`LingoDBHashIndex`, and what `RelationHelper` and `Catalog` do with them).

Rows are appended to the table in chunks and entered in the index with the
hash of their key and their row id. Three files keep them: the chunks, the
pairs of hash and row id, and the catalog with the number of rows. Each is
written at its own time, and only while persistence is on.

A function that throws keeps what it has done so far. The table has a sample of
its rows, which is null when rows were appended and there are still none; the
catalog cannot be written then. The `persist` of an index that was read from
the catalog is uninitialized; its value is an input (`Op.reload`).
-/
import GengoDB.ColumnHash
import GengoDB.Search

namespace GengoDB.HashIndex

/-! ## Rows and batches -/

/-- The cells of a row in the indexed columns. -/
abbrev Key (types : List Hash.ArrowType) := (i : Fin types.length) → Option (types.get i).Value

/-- The columns of a batch that an index reads. -/
def keyColumns {types : List Hash.ArrowType} (keys : List (Key types)) : List Hash.Column :=
  (List.finRange types.length).map fun i => ⟨types.get i, keys.map fun k => k i⟩

/-- A record batch. `validity` says whether every column has a validity buffer. -/
structure Batch (α : Type) where
  rows : List α
  validity : Bool

/-- An Arrow table as the batches it is read in. -/
structure ArrowTable (α : Type) where
  schemaEquals : Bool
  batches : List (Batch α)

def ArrowTable.rows {α : Type} (t : ArrowTable α) : List α := t.batches.flatMap (·.rows)

/-- What the table and its index are made for. A batch read back from a file has
its rows; its validity buffers can be gone. -/
structure Env (α : Type) where
  types : List Hash.ArrowType
  key : α → Key types
  xxHash64 : Bytes → BitVec 64
  readBatch : Batch α → Batch α
  rows_readBatch : ∀ b, (readBatch b).rows = b.rows

/-! ## State -/

structure TableChunk (α : Type) where
  data : Batch α
  startRowId : ℕ

def TableChunk.numRows {α : Type} (c : TableChunk α) : ℕ := c.data.rows.length

def maxNullCount : ℕ := 2 ^ 20

/-- The constructor of `TableChunk`; it throws if it has no validity buffer for
all rows. -/
def TableChunk.make {α : Type} (data : Batch α) (startRowId : ℕ) : Except String (TableChunk α) :=
  if !data.validity && maxNullCount < data.rows.length then .error "LingoDBTable: too many nulls in column"
  else .ok ⟨data, startRowId⟩

/-- Of the sample only whether it is there. -/
structure LingoDBTable (α : Type) where
  persist : Bool
  sample : Bool
  tableData : List (TableChunk α)
  numRows : ℕ
  loaded : Bool

structure Entry where
  hash : BitVec 64
  rowId : ℕ
  deriving DecidableEq, Repr

/-- `ht` with its `mask`: the chains of the buckets. -/
structure HashTable where
  mask : ℕ
  bucket : ℕ → List Entry

structure LingoDBHashIndex where
  ht : Option HashTable
  buffer : List Entry
  persist : Bool
  loaded : Bool

/-- The files of the table, of the index and of the catalog. -/
structure Disk (α : Type) where
  table : Option (List (Batch α))
  index : Option (List Entry)
  catalog : Option ℕ

/-- A catalog with the table and its index. -/
structure Db (α : Type) where
  shouldPersist : Bool
  table : LingoDBTable α
  index : LingoDBHashIndex
  disk : Disk α

/-- An exception, or the access to a null pointer. -/
inductive Failure where
  | exception (message : String)
  | crash
  deriving DecidableEq

/-- A state, and what went wrong. -/
abbrev Result (α : Type) := Db α × Option Failure

def andThen {α : Type} (r : Result α) (k : Db α → Result α) : Result α :=
  match r with
  | (db, none) => k db
  | (db, some failure) => (db, some failure)

section

variable {α : Type} (env : Env α)

/-! ## The table -/

def loadTable : List (Batch α) → ℕ → Except String (List (TableChunk α))
  | [], _ => .ok []
  | batch :: batches, currRowId => do
    let batch := env.readBatch batch
    let chunk ← TableChunk.make batch currRowId
    let chunks ← loadTable batches (currRowId + batch.rows.length)
    return chunk :: chunks

variable (db : Db α)

def tableEnsureLoaded : Result α :=
  if db.table.loaded then (db, none)
  else
    let db := { db with table := { db.table with loaded := true } }
    match db.disk.table with
    | none => (db, none)
    | some batches =>
      match loadTable env batches 0 with
      | .ok chunks => ({ db with table := { db.table with tableData := chunks } }, none)
      | .error e => (db, some (.exception e))

def tableFlush : Result α :=
  if !db.table.persist then (db, none)
  else andThen (tableEnsureLoaded env db) fun db =>
    ({ db with disk := { db.disk with table := some (db.table.tableData.map (·.data)) } }, none)

/-- The loop of `LingoDBTable::append`. -/
def pushBatches (schemaEquals : Bool) : List (Batch α) → Db α → Result α
  | [], db => (db, none)
  | batch :: batches, db =>
    if schemaEquals then
      match TableChunk.make batch db.table.numRows with
      | .ok chunk =>
        pushBatches schemaEquals batches { db with table := { db.table with
          tableData := db.table.tableData ++ [chunk]
          numRows := db.table.numRows + batch.rows.length } }
      | .error e => (db, some (.exception e))
    else (db, some (.exception "schema mismatch"))

/-- Whether `createSample` returns a sample. -/
def createSample (tableData : List (TableChunk α)) : Bool := (tableData.map (·.numRows)).sum ≠ 0

/-- `LingoDBTable::append`. -/
def tableAppend (t : ArrowTable α) (db : Db α) : Result α :=
  andThen (tableEnsureLoaded env db) fun db => andThen (pushBatches t.schemaEquals t.batches db) fun db =>
    tableFlush env { db with table := { db.table with sample := createSample db.table.tableData } }

def tableSetPersist (persist : Bool) (db : Db α) : Result α :=
  let db := { db with table := { db.table with persist := persist } }
  if persist then tableFlush env db else (db, none)

/-- Where a chunk ends. -/
def chunkEnd (chunks : List (TableChunk α)) (i : ℕ) : ℕ :=
  (chunks[i]?).elim 0 fun chunk => chunk.startRowId + chunk.numRows

/-- `getByRowId`: the position of a chunk and the offset in it; `none` is a row
id out of bounds. -/
def getByRowId (table : LingoDBTable α) (rowId : ℕ) : Option (ℕ × ℕ) :=
  let res := Search.partitionPoint (fun i => !decide (rowId < chunkEnd table.tableData i)) 0 table.tableData.length
  (table.tableData[res]?).map fun chunk => (res, rowId - chunk.startRowId)

/-! ## The index -/

def nextPow2 (v : ℕ) : ℕ :=
  let v := v - 1
  let v := v ||| v >>> 1
  let v := v ||| v >>> 2
  let v := v ||| v >>> 4
  let v := v ||| v >>> 8
  let v := v ||| v >>> 16
  let v := v ||| v >>> 32
  v + 1

/-- An entry becomes the head of its chain. -/
def link (mask : ℕ) (bucket : ℕ → List Entry) (entry : Entry) : ℕ → List Entry :=
  let idx := entry.hash.toNat &&& mask
  Function.update bucket idx (entry :: bucket idx)

def buildTable (buffer : List Entry) : HashTable :=
  let htSize := nextPow2 (max 1 buffer.length)
  let mask := htSize - 1
  ⟨mask, buffer.foldl (link mask) fun _ => []⟩

def rawBuild : Db α :=
  { db with index := { db.index with ht := some (buildTable db.index.buffer) } }

/-- The entries `rawInsert` makes for the rows of a batch. -/
def newEntries (startRowId : ℕ) (rows : List α) : List Entry :=
  let totalHash := Hash.totalHash env.xxHash64 rows.length (keyColumns (rows.map env.key))
  totalHash.zipIdx.map fun (hash, row) => ⟨hash, row + startRowId⟩

def rawInsert (startRowId : ℕ) (rows : List α) (db : Db α) : Result α :=
  if rows.length = 0 then (db, some (.exception "empty table"))
  else ({ db with index := { db.index with buffer := db.index.buffer ++ newEntries env startRowId rows } }, none)

def indexEnsureLoaded : Db α :=
  if db.index.loaded then db
  else
    let db := match db.disk.index with
      | some entries => rawBuild { db with index := { db.index with buffer := db.index.buffer ++ entries } }
      | none => db
    { db with index := { db.index with loaded := true } }

def indexFlush : Db α :=
  if db.index.persist then
    let db := indexEnsureLoaded db
    { db with disk := { db.disk with index := some db.index.buffer } }
  else db

/-- `appendRows` and `bulkInsert`. -/
def bulkInsert (startRowId : ℕ) (rows : List α) (db : Db α) : Result α :=
  andThen (rawInsert env startRowId rows db) fun db => (indexFlush (rawBuild db), none)

def indexSetPersist (persist : Bool) (db : Db α) : Db α :=
  let db := { db with index := { db.index with persist := persist } }
  if persist then indexFlush db else db

/-- The row ids of a chain that `HashIndexIteration` stops at. -/
def rowIds (hash : BitVec 64) : List Entry → List ℕ
  | [] => []
  | current :: next => if current.hash = hash then current.rowId :: rowIds hash next else rowIds hash next

/-- A lookup and its iteration; `none` is the access to a table that was never
built. -/
def lookup (index : LingoDBHashIndex) (hash : BitVec 64) : Option (List ℕ) :=
  index.ht.map fun ht => rowIds hash (ht.bucket (hash.toNat &&& ht.mask))

/-! ## The catalog -/

/-- `Catalog::persist`; `Sample::serialize` dereferences the sample. -/
def catalogPersist : Result α :=
  if db.shouldPersist then
    andThen (tableFlush env db) fun db =>
      let db := indexFlush db
      if db.table.sample then ({ db with disk := { db.disk with catalog := some db.table.numRows } }, none)
      else (db, some .crash)
  else (db, none)

def setShouldPersist (shouldPersist : Bool) (db : Db α) : Result α :=
  andThen (tableSetPersist env shouldPersist { db with shouldPersist }) fun db =>
    (indexSetPersist shouldPersist db, none)

/-- `RelationHelper::appendToTable`. -/
def appendToTable (t : ArrowTable α) (db : Db α) : Result α :=
  let startRowId := db.table.numRows
  andThen (tableAppend env t db) fun db => andThen (bulkInsert env startRowId t.rows db) (catalogPersist env)

/-- What a query does before it uses the index. -/
def ensureFullyLoaded : Db α := (tableEnsureLoaded env (indexEnsureLoaded db)).1

/-- `RelationHelper::createTable`, where there is no file of the table yet. -/
def createTable (shouldPersist : Bool) : Db α :=
  let db : Db α := ⟨shouldPersist, ⟨false, true, [], 0, false⟩, ⟨none, [], false, false⟩, ⟨none, none, none⟩⟩
  (andThen (setShouldPersist env shouldPersist db) (catalogPersist env)).1

/-- How a history ends early: the process crashes, or the catalog file that is
opened does not have the table. -/
inductive Ended where
  | crashed
  | gone
  deriving DecidableEq

/-- `Catalog::create`. -/
def reopen (disk : Disk α) (eagerLoading indexPersist : Bool) : Except Ended (Db α) :=
  match disk.catalog with
  | none => .error .gone
  | some numRows =>
    let db : Db α := ⟨false, ⟨false, true, [], numRows, false⟩, ⟨none, [], indexPersist, false⟩, disk⟩
    .ok (if eagerLoading then ensureFullyLoaded env db else db)

inductive Op (α : Type)
  /-- Rows of a table, or of a single batch (`appendRows`). -/
  | insert (t : ArrowTable α)
  | persist
  | setPersist (value : Bool)
  | load
  /-- Closing the catalog persists it. -/
  | reload (eagerLoading indexPersist : Bool)

/-- An exception goes to the caller, and the process goes on. -/
def goOn : Result α → Except Ended (Db α)
  | (_, some .crash) => .error .crashed
  | (db, _) => .ok db

def step : Op α → Except Ended (Db α)
  | .insert t => goOn (appendToTable env t db)
  | .persist => goOn (catalogPersist env db)
  | .setPersist value => goOn (setShouldPersist env value db)
  | .load => .ok (ensureFullyLoaded env db)
  | .reload eagerLoading indexPersist =>
    (goOn (catalogPersist env db)).bind fun db => reopen env db.disk eagerLoading indexPersist

def run (db : Db α) : List (Op α) → Except Ended (Db α)
  | [] => .ok db
  | op :: ops => (step env db op).bind fun db => run db ops

end

end GengoDB.HashIndex
