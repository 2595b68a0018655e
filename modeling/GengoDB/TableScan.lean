/-
The scan tasks of a table (`ScanBatchesTask`, `ScanBatchesSingleThreadedTask`
in `LingoDBTable.cpp`).

Both cut the chunks into ranges of rows, filter each range and give the
selection vector to the callback unless it is empty. The parallel task cuts by
units of the work-stealing iteration; the sequential one has a loop of its own.

A range longer than `BatchView::maxBatchSize` does not fit into the selection
vectors, the default one included: it is modelled as a failure.
-/
import Mathlib.Algebra.GroupWithZero.Nat
import GengoDB.RestrictionsFacts
import GengoDB.WorkStealing

namespace GengoDB.Scan

structure Chunk where
  numRows : ℕ
  getArrayView : ℕ → ArrayView
  covers : ∀ colId, numRows ≤ (getArrayView colId).length

/-- A range of rows of the chunk with number `chunkId`. -/
structure Cut where
  chunkId : ℕ
  chunk : Chunk
  offset : ℕ
  length : ℕ

/-- What the callback gets: `rows` is the length of the range before the
filters. -/
structure BatchView where
  chunkId : ℕ
  offset : ℕ
  rows : ℕ
  selectionVector : List ℕ

/-- Filter a range and call the callback on what is left. -/
def deliver (r : Restrictions) (cut : Cut) : Option (List BatchView) :=
  if cut.length ≤ maxBatchSize then
    let selVec := r.applyFilters cut.offset cut.length cut.chunk.getArrayView
    some (if selVec.length > 0 then [⟨cut.chunkId, cut.offset, cut.length, selVec⟩] else [])
  else none

def deliverAll (r : Restrictions) (cuts : List Cut) : Option (List BatchView) :=
  (cuts.mapM (deliver r)).map List.flatten

/-! ## The sequential task -/

/-- `ScanBatchesSingleThreadedTask::performWork`. -/
def chunkCuts (chunk : Chunk) (chunkId : ℕ) : List Cut :=
  (Loop.count (fun start => start < chunk.numRows) maxBatchSize
    (fun start => [⟨chunkId, chunk, start, chunk.numRows - start⟩]) chunk.numRows 0).2

def sequentialCuts (batches : List Chunk) : List Cut :=
  batches.zipIdx.flatMap fun batch => chunkCuts batch.1 batch.2

/-! ## The parallel task -/

def splitSize (numRows numWorkers : ℕ) : ℕ :=
  let smallerSplitSize := max 1000 (numRows / (numWorkers * 2))
  if smallerSplitSize < 20000 then smallerSplitSize else 20000

theorem splitSize_pos (numRows numWorkers : ℕ) : 0 < splitSize numRows numWorkers := by
  unfold splitSize
  dsimp only
  split <;> omega

theorem splitSize_le (numRows numWorkers : ℕ) : splitSize numRows numWorkers ≤ maxBatchSize := by
  unfold splitSize maxBatchSize
  dsimp only
  split <;> omega

/-- The iteration that hands out the units. -/
def scanConfig (batches : List Chunk) (numWorkers : ℕ) : Steal.Config where
  workers := numWorkers
  chunks := batches.map Chunk.numRows
  splitSize := splitSize (batches.map Chunk.numRows).sum numWorkers
  splitSize_pos := splitSize_pos _ _

/-- `ScanBatchesTask::unitRun`. -/
def unitRun (splitSize : ℕ) (chunk : Chunk) (batchId unitId : ℕ) : Cut :=
  let start := splitSize * unitId
  let len := min (start + splitSize) chunk.numRows - start
  ⟨batchId, chunk, start, min (chunk.numRows - start) len⟩

/-- The ranges the workers have run so far. -/
def parallelCuts (batches : List Chunk) (numWorkers : ℕ) (s : Steal.State (scanConfig batches numWorkers).workers) :
    List Cut :=
  s.ran.flatMap fun ran =>
    (batches[ran.2.1]?.map fun chunk => unitRun (scanConfig batches numWorkers).splitSize chunk ran.2.1 ran.2.2).toList

end GengoDB.Scan
