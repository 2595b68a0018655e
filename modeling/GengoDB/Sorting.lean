/-
The parallel sample sort (`Sorting.cpp`).

The input is cut into splits that are sorted on their own; from every split
equally spaced separators are taken; the median of the separators of one
position, looked up in every split, cuts all splits at the same value; the
pieces between two cuts are merged into one range of the output.

`std::sort` and `std::priority_queue` are parameters: whatever sorts, and
whatever finds a least element, the ties in any order. The queue is built with
the negated comparison, so its top is an element no other is before. An access
outside of the input or the output, a range that ends before it begins and a
division by zero are failures.
-/
import Mathlib.Algebra.GroupWithZero.Nat
import GengoDB.Search
import GengoDB.WeakOrder

namespace GengoDB.Sorting

open WeakOrder

/-- The algorithms of the standard library. -/
structure Library where
  sort : {β : Type} → (β → β → Bool) → List β → List β
  sort_perm : ∀ {β : Type} {less : β → β → Bool} (l : List β), StrictWeak less → (sort less l).Perm l
  sort_sorted : ∀ {β : Type} {less : β → β → Bool} (l : List β), StrictWeak less → Sorted less (sort less l)
  top : {β : Type} → (β → β → Bool) → List (β × ℕ) → ℕ
  top_least : ∀ {β : Type} {less : β → β → Bool}, StrictWeak less → FindsLeast less (top less)

def minSplitSize : ℕ := 512

def canParallelSort (valueSize : ℕ) : Bool := minSplitSize < valueSize

def normalizeSepCnt (inputSize splitCnt seperatorCnt : ℕ) : ℕ :=
  let sizePerSplit := inputSize / splitCnt
  let minSepSegment := 8
  if sizePerSplit < minSepSegment * seperatorCnt then sizePerSplit / minSepSegment else seperatorCnt

/-- The number of splits and the number of separators. -/
def calcSplitSeperator (inputSize workerNum : ℕ) : ℕ × ℕ :=
  let sizePerWorker := inputSize / workerNum
  if sizePerWorker < minSplitSize * 4 then
    let splitCnt := inputSize / minSplitSize
    (splitCnt, normalizeSepCnt inputSize splitCnt workerNum)
  else if 32768 * 4 < sizePerWorker then
    let splitSize := if 32768 * 16 < sizePerWorker then 32768 * 4 else 32768 * 2
    let splitCnt := inputSize / splitSize
    (splitCnt, normalizeSepCnt inputSize splitCnt (workerNum * 4))
  else
    let splitCnt := if 65536 < sizePerWorker then workerNum * 4 else workerNum * 2
    (splitCnt, normalizeSepCnt inputSize splitCnt (workerNum * 2))

/-! ## Local runs -/

structure SortSplitState where
  first : ℕ
  last : ℕ
  localSeperators : List ℕ

def splitSize (inputSize splitCnt : ℕ) : ℕ := (inputSize + splitCnt - 1) / splitCnt

/-- `SortLocalTask::performWork`, but for the sort. -/
def splitState (inputSize splitCnt seperatorCnt localStartIndex : ℕ) : Option SortSplitState :=
  let first := localStartIndex * splitSize inputSize splitCnt
  let last := min ((localStartIndex + 1) * splitSize inputSize splitCnt) inputSize
  if last < first then none
  else
    let range := last - first
    let startOffset := range / seperatorCnt / 2
    some ⟨first, last, (List.range seperatorCnt).map fun i => first + startOffset + i * range / seperatorCnt⟩

variable {α : Type}

def slice (l : List α) (first last : ℕ) : List α := (l.drop first).take (last - first)

/-- The input with every split sorted. -/
def sortSplits (lib : Library) (less : α → α → Bool) (input : List α) (localStates : List SortSplitState) : List α :=
  localStates.flatMap fun state => lib.sort less (slice input state.first state.last)

/-! ## Separators -/

/-- `SortSepSearchTask::performWork`: the value of the separator. -/
def globalSepVal (lib : Library) (less : α → α → Bool) (input : List α) (localStates : List SortSplitState)
    (localStartIndex : ℕ) : Option α := do
  let samePosSeps ← localStates.mapM fun state => state.localSeperators[localStartIndex]?
  let elements ← samePosSeps.mapM fun idx => input[idx]?.map (idx, ·)
  let sorted := lib.sort (fun l r => less l.2 r.2) elements
  sorted[sorted.length / 2]?.map Prod.snd

variable (less : α → α → Bool)

/-- `std::lower_bound` in one split. -/
def globalSeperator (input : List α) (val : α) (state : SortSplitState) : ℕ :=
  Search.partitionPoint (fun i => input[i]?.any (less · val)) state.first (state.last - state.first)

/-! ## Merging -/

/-- Where piece `j` of a split begins, given the separator values; piece
`seperatorCnt` ends at the end of the split. -/
def pieceFirst (input : List α) (vals : List α) (state : SortSplitState) (j : ℕ) : ℕ :=
  if j = 0 then state.first
  else match vals[j - 1]? with
    | some val => globalSeperator less input val state
    | none => state.last

def pieceLast (input : List α) (vals : List α) (state : SortSplitState) (j : ℕ) : ℕ :=
  match vals[j]? with
  | some val => globalSeperator less input val state
  | none => state.last

/-- The output ranges: where the pieces with number `j` go. -/
def outputRange (input : List α) (vals : List α) (localStates : List SortSplitState) (j : ℕ) : ℕ :=
  ((List.range j).map fun j => (localStates.map fun state =>
    pieceLast less input vals state j - pieceFirst less input vals state j).sum).sum

/-- `SortMergeTask::performWork`: what is written from the output range on. -/
def mergePieces (lib : Library) (less : α → α → Bool) (input : List α) (vals : List α)
    (localStates : List SortSplitState) (j : ℕ) : List α :=
  mergeAll (lib.top less) (localStates.map fun state =>
    slice input (pieceFirst less input vals state j) (pieceLast less input vals state j))

/-- Write from `pos` on. -/
def write (out : List (Option α)) (pos : ℕ) (segment : List α) : Option (List (Option α)) :=
  if pos + segment.length ≤ out.length then
    some (out.take pos ++ segment.map some ++ out.drop (pos + segment.length))
  else none

/-! ## The sort -/

/-- The tasks of the sort, one after the other. -/
def sampleSort (lib : Library) (less : α → α → Bool) (splitCnt seperatorCnt : ℕ) (toSort : List α) : Option (List α) := do
  let localStates ← (List.range splitCnt).mapM (splitState toSort.length splitCnt seperatorCnt)
  let input := sortSplits lib less toSort localStates
  let vals ← (List.range seperatorCnt).mapM (globalSepVal lib less input localStates)
  let sorted ← (List.range (seperatorCnt + 1)).foldlM (fun out j =>
    write out (outputRange less input vals localStates j) (mergePieces lib less input vals localStates j))
    (List.replicate toSort.length none)
  sorted.mapM id

def parallelSort (lib : Library) (less : α → α → Bool) (workerNum : ℕ) (values : List (List α)) : Option (List α) :=
  let toSort := values.flatten
  let counts := calcSplitSeperator toSort.length workerNum
  if workerNum = 0 ∨ counts.1 = 0 ∨ counts.2 = 0 then none else sampleSort lib less counts.1 counts.2 toSort

end GengoDB.Sorting
