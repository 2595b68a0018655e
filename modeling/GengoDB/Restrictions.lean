/-
The filters a table scan applies to a batch (`Restrictions.cpp`).

A batch is a range of rows of one chunk; a filter turns a selection vector,
the positions of the batch still selected, into the next one. Columns are
Arrow arrays with an offset of their own, a validity bitmap, and fixed-size
values or string offsets and bytes. The kernels keep the shape of the source:
the first not-null filter ignores the selection vector and reads the bitmap
by bytes once it is aligned, the others are unrolled.

Positions are 16 bits wide. A fixed-size value stands for itself as an
integer; what an array holds outside its rows is not constrained.
-/
import GengoDB.Loop
import GengoDB.Search

namespace GengoDB.Scan

/-- `BatchView::maxBatchSize`. -/
def maxBatchSize : ℕ := 65536

/-- A position as it is stored in a selection vector. -/
def toU16 (i : ℕ) : ℕ := i % 65536

/-- `(validData[i / 8] >> (i % 8)) & 1`. -/
def validBit (validData : ℕ → BitVec 8) (i : ℕ) : Bool := (validData (i / 8) >>> (i % 8)) &&& 1#8 != 0#8

/-- One column of a chunk: the rows are those from `offset` on. -/
structure ArrayView where
  length : ℕ
  nullCount : ℤ
  offset : ℕ
  validData : ℕ → BitVec 8
  data : ℕ → ℤ
  offsets : ℕ → ℕ
  bytes : ℕ → UInt8
  noNulls : nullCount = 0 → ∀ i < length, validBit validData (i + offset) = true

namespace ArrayView

def isValid (view : ArrayView) (row : ℕ) : Bool := validBit view.validData (row + view.offset)

def value (view : ArrayView) (row : ℕ) : ℤ := view.data (row + view.offset)

def text (view : ArrayView) (row : ℕ) : List UInt8 :=
  let first := view.offsets (row + view.offset)
  (List.range (view.offsets (row + view.offset + 1) - first)).map fun k => view.bytes (first + k)

end ArrayView

/-! ## Filters -/

inductive Cmp
  | eq
  | neq
  | gt
  | gte
  | lt
  | lte
  deriving DecidableEq, Repr

def Cmp.apply {T : Type} [LT T] [DecidableEq T] [DecidableLT T] (cmp : Cmp) (a b : T) : Bool :=
  match cmp with
  | .eq => a = b
  | .neq => a ≠ b
  | .gt => b < a
  | .gte => ¬ a < b
  | .lt => a < b
  | .lte => ¬ b < a

inductive Filter
  | firstNotNull
  | notNull
  | simpleType (cmp : Cmp) (value : ℤ)
  | simpleTypeIn (values : List ℤ)
  | varLen32 (cmp : Cmp) (value : List UInt8)
  | varLen32In (values : List (List UInt8))
  deriving DecidableEq

/-- `*writer = position; writer += keep`. -/
def write (position : ℕ) (keep : Bool) : List ℕ := if keep then [toU16 position] else []

/-- A kernel over the selection vector `sel`, unrolled `width` times, with a
plain loop for the rest. -/
def unrolled (width : ℕ) (keep : ℕ → Bool) (sel : List ℕ) : List ℕ :=
  let len := sel.length
  let lenW := len / width * width
  let emit (i : ℕ) : List ℕ := write (sel.getD i 0) (keep (sel.getD i 0))
  (Loop.count (fun i => i < lenW) width (fun i => (List.range' i width).flatMap emit) len 0).2 ++
    (Loop.count (fun i => i < len) 1 emit len lenW).2

def plain (keep : ℕ → Bool) (sel : List ℕ) : List ℕ :=
  (Loop.count (fun i => i < sel.length) 1 (fun i => write (sel.getD i 0) (keep (sel.getD i 0))) sel.length 0).2

/-- The eight positions from `i` on, by the bits of one byte of the bitmap. -/
def writeByte (byte : BitVec 8) (i : ℕ) : List ℕ :=
  write i (byte &&& 1#8 != 0#8) ++ write (i + 1) (byte &&& 2#8 != 0#8) ++ write (i + 2) (byte &&& 4#8 != 0#8) ++
    write (i + 3) (byte &&& 8#8 != 0#8) ++ write (i + 4) (byte &&& 16#8 != 0#8) ++
    write (i + 5) (byte &&& 32#8 != 0#8) ++ write (i + 6) (byte &&& 64#8 != 0#8) ++
    write (i + 7) (byte &&& 128#8 != 0#8)

/-- The bitmap from bit `base` on, for `len` positions: bit by bit up to a
byte boundary, then by bytes, then the rest. -/
def scanBitmap (validData : ℕ → BitVec 8) (base len : ℕ) : List ℕ :=
  let bit (i : ℕ) : List ℕ := write i (validBit validData (i + base))
  let aligned := Loop.count (fun i => i < len && (i + base) % 8 != 0) 1 bit len 0
  let len8 := len / 8 * 8
  let bytes := Loop.count (fun i => i < len8) 8 (fun i => writeByte (validData ((i + base) / 8)) i) len aligned.1
  let rest := Loop.count (fun i => i < len) 1 bit len bytes.1
  aligned.2 ++ bytes.2 ++ rest.2

/-- `value` among the sorted values: linear search in short lists, binary
search in long ones. -/
def inValues (values : List ℤ) (value : ℤ) : Bool :=
  let sorted := values.mergeSort
  if values.length ≤ 10 then sorted.any (· == value) else Search.binarySearch sorted value

namespace Filter

/-- Whether a kernel keeps the position `pos` of the batch at `offset`. -/
def keeps (f : Filter) (view : ArrayView) (offset pos : ℕ) : Bool :=
  match f with
  | .firstNotNull | .notNull => view.isValid (pos + offset)
  | .simpleType cmp v => cmp.apply (view.value (pos + offset)) v
  | .simpleTypeIn values => inValues values (view.value (pos + offset))
  | .varLen32 cmp v => cmp.apply (view.text (pos + offset)) v
  | .varLen32In values => values.contains (view.text (pos + offset))

def filter (f : Filter) (sel : List ℕ) (view : ArrayView) (offset : ℕ) : List ℕ :=
  match f with
  | .firstNotNull =>
    if view.nullCount = 0 then sel else scanBitmap view.validData (offset + view.offset) sel.length
  | .notNull => if view.nullCount = 0 then sel else unrolled 8 (f.keeps view offset) sel
  | .simpleType _ _ => unrolled 4 (f.keeps view offset) sel
  | .simpleTypeIn _ => plain (f.keeps view offset) sel
  | .varLen32 _ _ => unrolled 4 (f.keeps view offset) sel
  | .varLen32In _ => plain (f.keeps view offset) sel

end Filter

/-- The filters of a scan with their columns. Only the first one may be the
not-null filter that does not look at the selection vector. -/
structure Restrictions where
  filters : List (Filter × ℕ)
  firstOnly : ∀ f ∈ filters.tail, f.1 ≠ .firstNotNull

namespace Restrictions

def applyFrom (offset : ℕ) (getArrayView : ℕ → ArrayView) : List (Filter × ℕ) → List ℕ → List ℕ
  | [], sel => sel
  | (f, colId) :: fs, sel =>
    let next := f.filter sel (getArrayView colId) offset
    if next = [] then [] else applyFrom offset getArrayView fs next

/-- The positions of the batch of `length` rows at `offset` that are left. -/
def applyFilters (r : Restrictions) (offset length : ℕ) (getArrayView : ℕ → ArrayView) : List ℕ :=
  if r.filters = [] then List.range length else applyFrom offset getArrayView r.filters (List.range length)

end Restrictions

end GengoDB.Scan
