/-
When a selection can be left to the scan of a base table.

The predicates that `tryPushdownIntoBasetable` accepts are more than those
`Restrictions::create` has kernels for. `Predicate.Supported` says which are
right: comparisons other than the null-safe one with a constant that the type
of the column can hold, of characters only for equality, and lists for
integers, dates and texts. For these the scan keeps of the rows that it selected
before exactly those on which the predicate is true, if and only if the first
not-null kernel lets nothing through behind the batch (`applyFilters_pushdown`).
-/
import Mathlib.Data.Int.ConditionallyCompleteOrder
import Mathlib.Tactic.Positivity
import GengoDB.BasetablePushdown

namespace GengoDB.Scan

open List Value Restrictions Predicate ColumnType Option

open Hash (IntWidth)

/-! ## What is supported -/

def InRange (width : IntWidth) (n : ℤ) : Prop := -2 ^ (width.bits - 1) ≤ n ∧ n < 2 ^ (width.bits - 1)

/-- A comparison of a column of the type with a constant has a kernel that
decides it. -/
def Comparable (parsers : Parsers) : ColumnType → Cmp → Constant → Prop
  | .int width, _, .int n => InRange width n
  | .date32, _, .string s => (parsers.date32 s).isSome
  | .decimal _ scale, _, .int n => -2 ^ 127 ≤ n * 10 ^ scale ∧ n * 10 ^ scale < 2 ^ 127
  | .decimal _ scale, _, .string s => ∃ m digits u, parsers.decimal s = some (m, digits) ∧
      parsers.rescale m digits scale = some u ∧ (m : ℚ) / 10 ^ digits = u / 10 ^ scale
  | .char 1, cmp, .string s => (cmp = .eq ∨ cmp = .neq) ∧ s.length ≤ 4 ∧ s.getLast? ≠ some 0
  | .char _, _, .string _ => True
  | .string, _, .string _ => True
  | _, _, _ => False

/-- The same for a list of constants. -/
def Listable (parsers : Parsers) : ColumnType → List Constant → Prop
  | .int width, constants => constants ≠ [] ∧ ∀ v ∈ constants, ∃ n, v = .int n ∧ InRange width n
  | .date32, constants => ∀ v ∈ constants, ∃ s, v = .string s ∧ (parsers.date32 s).isSome
  | .char length, constants => length ≠ 1 ∧ ∀ v ∈ constants, ∃ s, v = .string s
  | .string, constants => ∀ v ∈ constants, ∃ s, v = .string s
  | _, _ => False

/-- The constants that a column is compared with can be left to its kernels. -/
def Predicate.Supported (parsers : Parsers) (schema : Schema) : Predicate → Prop
  | notIsNull _ => True
  | compare .isa _ _ => False
  | compare (.cmp cmp) left right =>
    (∀ c v, getColumnName schema left = some c → getConstant right = some v → Comparable parsers c.type cmp v) ∧
      ∀ c v, getColumnName schema right = some c → getConstant left = some v →
        Comparable parsers c.type cmp.reverse v
  | between val lower upper lowerInclusive upperInclusive =>
    ∀ c, getColumnName schema val = some c →
      (∀ v, getConstant lower = some v → Comparable parsers c.type (if lowerInclusive then .gte else .gt) v) ∧
      ∀ v, getConstant upper = some v → Comparable parsers c.type (if upperInclusive then .lte else .lt) v
  | oneOf val vals =>
    ∀ c constants, getColumnName schema val = some c → vals.mapM getConstant = some constants →
      Listable parsers c.type constants ∧
        -- the description has no types: each constant is read at that of the column
        ∀ v ∈ vals, ∀ k, getConstant v = some k → ∀ cells, v.eval parsers cells = k.denote parsers c.type

/-! ## Numbers -/

variable {n : ℤ} {s : List UInt8} {α : Type} {mk : α → Constant} {l : List α}

theorem narrow_eq {bits : ℕ} (hbits : 0 < bits) (hlo : -2 ^ (bits - 1) ≤ n) (hhi : n < 2 ^ (bits - 1)) :
    narrow bits n = n := by
  obtain ⟨k, rfl⟩ : ∃ k, bits = k + 1 := ⟨bits - 1, by omega⟩
  rw [Nat.add_sub_cancel] at hlo hhi
  refine Int.bmod_eq_of_le ?_ ?_ <;> push_cast [Nat.pow_succ] <;> omega

theorem unpackBytes_zero (k : ℕ) : unpackBytes k 0 = [] := by
  cases k <;> rfl

theorem unpack_pack {bytes : List UInt8} {k : ℕ} (hlen : bytes.length ≤ k) (hlast : bytes.getLast? ≠ some 0) :
    unpackBytes k (packBytes bytes) = bytes := by
  induction bytes generalizing k with
  | nil => exact unpackBytes_zero k
  | cons b bytes ih =>
    obtain ⟨k, rfl⟩ : ∃ k', k = k' + 1 := ⟨k - 1, by rw [length_cons] at hlen; omega⟩
    have htail : unpackBytes k (packBytes bytes) = bytes := by
      refine ih (by simpa using hlen) ?_
      cases bytes with
      | nil => simp
      | cons b' bytes => rwa [getLast?_cons_cons] at hlast
    have hb : b.toNat < 256 := b.toNat_lt
    have hne : b.toNat + 256 * packBytes bytes ≠ 0 := by
      intro h
      have hnil : bytes = [] := by rw [← htail, show packBytes bytes = 0 by omega, unpackBytes_zero]
      have hzero : b = 0 := UInt8.toNat_inj.mp (by rw [UInt8.toNat_zero]; omega)
      exact hlast (by rw [hnil, hzero]; rfl)
    have hbyte : UInt8.ofNat (b.toNat + 256 * packBytes bytes) = b := by
      rw [← UInt8.toNat_inj, UInt8.toNat_ofNat']
      omega
    have hrest : (b.toNat + 256 * packBytes bytes) / 256 = packBytes bytes := by omega
    rw [packBytes, unpackBytes, if_neg hne, hbyte, hrest, htail]

theorem pack_unpack {k n : ℕ} (h : n < 256 ^ k) : packBytes (unpackBytes k n) = n := by
  induction k generalizing n with
  | zero => rw [unpackBytes, packBytes]; omega
  | succ k ih =>
    rw [unpackBytes]
    split
    · next hzero => rw [hzero, packBytes]
    · rw [packBytes, ih (by rw [Nat.pow_succ] at h; omega), UInt8.toNat_ofNat']
      omega

theorem packBytes_lt (bytes : List UInt8) : packBytes bytes < 256 ^ bytes.length := by
  induction bytes with
  | nil => exact Nat.one_pos
  | cons b bytes ih =>
    have hb : b.toNat < 256 := b.toNat_lt
    rw [packBytes, length_cons]
    omega

/-- Characters are equal if the numbers are that they are stored as. -/
theorem eq_narrow_pack_iff {v : ℤ} (hv : InRange .w32 v) (hlen : s.length ≤ 4) (hlast : s.getLast? ≠ some 0) :
    v = narrow 32 (packBytes (s.take 4)) ↔ unpackBytes 4 (v % 2 ^ 32).toNat = s := by
  have hsmall : packBytes s < 2 ^ 32 := (packBytes_lt s).trans_le (Nat.pow_le_pow_right (by omega) hlen)
  rw [take_of_length_le hlen]
  constructor
  · intro h
    have hmod : (v % 2 ^ 32).toNat = packBytes s := by
      rw [h, narrow]
      have := Int.bmod_emod (x := packBytes s) (m := 2 ^ 32)
      omega
    rw [hmod, unpack_pack hlen hlast]
  · intro h
    have hmod : packBytes s = (v % 2 ^ 32).toNat := by
      rw [← h]
      exact pack_unpack (by omega)
    have hcast : ((v % 2 ^ 32).toNat) = v % (2 ^ 32 : ℕ) := by
      omega
    rw [hmod, hcast, narrow, Int.emod_bmod]
    exact (narrow_eq (by decide) hv.1 hv.2).symm

theorem Cmp.apply_strictMono {β : Type} [LinearOrder α] [LinearOrder β] {f : α → β} (hf : StrictMono f) (cmp : Cmp)
    (a b : α) : cmp.apply (f a) (f b) = cmp.apply a b := by
  cases cmp <;> simp only [Cmp.apply, ne_eq, hf.injective.eq_iff, hf.lt_iff_lt]

theorem strictMono_scaled (scale : ℕ) : StrictMono fun n : ℤ => (n : ℚ) / 10 ^ scale := fun a b h =>
  div_lt_div_of_pos_right (Int.cast_lt.mpr h) (by positivity)

theorem Cmp.apply_reverse [LT α] [DecidableEq α] [DecidableLT α] (cmp : Cmp) (a b : α) :
    cmp.reverse.apply a b = cmp.apply b a := by
  cases cmp <;> simp only [Cmp.apply, Cmp.reverse, ne_eq, eq_comm]

/-! ## Kernels -/

/-- A number stored for a character has 32 bits. -/
def ColumnType.Stores (type : ColumnType) (view : ArrayView) (row : ℕ) : Prop :=
  type = .char 1 → InRange .w32 (view.value row)

variable {parsers : Parsers} {type : ColumnType} {cmp : Cmp}

/-- A kernel lets a row pass exactly if its value passes the test. -/
def Decides (type : ColumnType) (f : Filter) (test : Option Value → Option Bool) : Prop :=
  ∀ view row, type.Stores view row → (f.satisfied view row = true ↔ test (some (type.decode view row)) = some true)

theorem compare_number [LinearOrder α] {f : α → ℚ} (hf : StrictMono f) (a b : α) :
    compare cmp (some (.number (f a))) (some (.number (f b))) = some true ↔ cmp.apply a b := by
  rw [Value.compare, some.injEq, Cmp.apply_strictMono hf]

theorem decides_number (h : ∀ view row, type.decode view row = .number (view.value row)) :
    Decides type (.simpleType cmp n) fun x => compare cmp x (some (.number n)) := by
  intro view row _
  rw [h]
  exact (compare_number Int.cast_strictMono _ _).symm

theorem decides_decimal {q : ℚ} {precision scale : ℕ} (hq : q = n / 10 ^ scale) :
    Decides (.decimal precision scale) (.simpleType cmp n) fun x => compare cmp x (some (.number q)) := by
  intro view row _
  rw [hq]
  exact (compare_number (strictMono_scaled scale) _ _).symm

/-- The types whose values are stored as texts. -/
def ColumnType.IsText (type : ColumnType) : Prop := type = .string ∨ ∃ length ≠ 1, type = .char length

theorem ColumnType.IsText.decode (h : type.IsText) (view : ArrayView) (row : ℕ) :
    type.decode view row = .text (view.text row) := by
  rcases h with rfl | ⟨length, hne, rfl⟩
  · rfl
  · rw [decode, if_neg hne]

theorem ColumnType.IsText.denote (h : type.IsText) (s : List UInt8) :
    (Constant.string s).denote parsers type = some (.text s) := by
  rcases h with rfl | ⟨length, hne, rfl⟩ <;> rfl

theorem decides_text (h : type.IsText) :
    Decides type (.varLen32 cmp s) fun x => Value.compare cmp x (some (.text s)) := by
  intro view row _
  simp [h.decode, Value.compare, Filter.satisfied]

theorem decides_char (hcmp : cmp = .eq ∨ cmp = .neq) (hlen : s.length ≤ 4) (hlast : s.getLast? ≠ some 0) :
    Decides (.char 1) (.simpleType cmp (narrow 32 (packBytes (s.take 4))))
      fun x => compare cmp x (some (.text s)) := by
  intro view row hstores
  have heq := eq_narrow_pack_iff (hstores rfl) hlen hlast
  simp only [decode, if_true, Value.compare, some.injEq, Filter.satisfied]
  rcases hcmp with rfl | rfl
  · simp only [Cmp.apply, heq]
  · simp only [Cmp.apply, ne_eq, heq]

variable {desc : FilterDescription}

/-- The kernel for a comparison. -/
theorem createFilter_compare (h : Comparable parsers type cmp desc.value)
    (hop : desc.op = .cmp cmp) : ∃ f, createFilter parsers type.storageType desc = .ok f ∧
      Decides type f fun x => compare cmp x (desc.value.denote parsers type) := by
  obtain ⟨columnName, op, value, values⟩ := desc
  subst hop
  cases type with
  | int width =>
    cases value with
    | int n =>
      refine ⟨.simpleType cmp n, ?_, decides_number fun _ _ => rfl⟩
      have hnarrow : narrow width.bits n = n := narrow_eq (by cases width <;> decide) h.1 h.2
      exact congrArg (fun m => Except.ok (Filter.simpleType cmp m)) hnarrow
    | string s | double x => exact h.elim
  | date32 =>
    cases value with
    | string s =>
      obtain ⟨day, hday⟩ := isSome_iff_exists.mp h
      refine ⟨.simpleType cmp day, ?_, ?_⟩
      · simp [storageType, createFilter, Constant.getString, parseDate32, hday, createSimpleTypeSimpleFilters]
      · rw [Constant.denote, hday]
        exact decides_number fun _ _ => rfl
    | int n | double x => exact h.elim
  | decimal precision scale =>
    cases value with
    | int n =>
      have hnarrow : narrow 128 (n * 10 ^ scale) = n * 10 ^ scale := narrow_eq (by decide) h.1 h.2
      refine ⟨.simpleType cmp (n * 10 ^ scale), ?_, decides_decimal ?_⟩
      · exact congrArg (fun m => Except.ok (Filter.simpleType cmp m)) hnarrow
      · push_cast
        rw [mul_div_cancel_right₀ _ (by positivity)]
    | string s =>
      obtain ⟨m, digits, u, hd, hu, hscaled⟩ := h
      refine ⟨.simpleType cmp u, ?_, ?_⟩
      · simp [storageType, createFilter, decimalConstant, hd, hu, createSimpleTypeSimpleFilters]
      · rw [Constant.denote, hd]
        exact decides_decimal hscaled
    | double x => exact h.elim
  | char length =>
    cases value with
    | string s =>
      by_cases hone : length = 1
      · subst hone
        exact ⟨_, rfl, decides_char h.1 h.2.1 h.2.2⟩
      · refine ⟨.varLen32 cmp s, ?_, decides_text (.inr ⟨length, hone, rfl⟩)⟩
        rw [storageType, if_neg hone]
        rfl
    | int n | double x => simp [Comparable] at h
  | string =>
    cases value with
    | string s => exact ⟨.varLen32 cmp s, rfl, decides_text (.inl rfl)⟩
    | int n | double x => exact h.elim
  | boolean | float | double | date64 | timestamp unit | interval unit => cases value <;> exact h.elim

/-! ## Lists -/

/-- Whether a value equals one of the constants. -/
def equalsOne (parsers : Parsers) (type : ColumnType) (constants : List Constant) (x : Option Value) : Option Bool :=
  constants.foldr (fun v b => Kleene.or (Value.compare .eq x (v.denote parsers type)) b) (some false)

variable {constants : List Constant}

theorem equalsOne_eq_true {x : Option Value} : equalsOne parsers type constants x = some true ↔
      ∃ v ∈ constants, compare .eq x (v.denote parsers type) = some true := by
  induction constants with
  | nil => simp [equalsOne]
  | cons v constants ih =>
    rw [equalsOne, foldr_cons, Kleene.or_eq_true, exists_mem_cons_iff, ← ih, equalsOne]

theorem push_map {box : List α → ConstantList} (h : ∀ acc a, (box acc).push (mk a) = box (acc ++ [a])) (l acc : List α) :
    (l.map mk).foldl ConstantList.push (box acc) = box (acc ++ l) := by
  induction l generalizing acc with
  | nil => rw [append_nil]; rfl
  | cons a l ih => rw [map_cons, foldl_cons, h, ih, append_assoc, singleton_append]

theorem push_strings : ∀ texts acc : List (List UInt8),
    (texts.map Constant.string).foldl ConstantList.push (.strings acc) = ConstantList.strings (acc ++ texts) :=
  push_map fun _ _ => rfl

theorem exists_map_of_forall (h : ∀ v ∈ constants, ∃ a, v = mk a) : ∃ l : List α, constants = l.map mk := by
  induction constants with
  | nil => exact ⟨[], rfl⟩
  | cons v constants ih =>
    obtain ⟨a, rfl⟩ := h v mem_cons_self
    obtain ⟨l, rfl⟩ := ih fun v hv => h v (mem_cons_of_mem _ hv)
    exact ⟨a :: l, rfl⟩

/-- A kernel that looks a value up decides a list if each comparison is an
equality of what is looked up. -/
theorem equalsOne_map {β : Type} {key : α → β} {found : β} {x : Value}
    (h : ∀ a ∈ l, compare .eq (some x) ((mk a).denote parsers type) = some true ↔ found = key a) :
    equalsOne parsers type (l.map mk) (some x) = some true ↔ found ∈ l.map key := by
  simp only [equalsOne_eq_true, List.mem_map, exists_exists_and_eq_and]
  refine exists_congr fun a => and_congr_right fun ha => ?_
  rw [h a ha, eq_comm]

theorem decides_texts {texts : List (List UInt8)} (h : type.IsText) :
    Decides type (.varLen32In texts) (equalsOne parsers type (texts.map Constant.string)) := by
  intro view row _
  have hone : ∀ s ∈ texts, compare .eq (some (.text (view.text row))) ((Constant.string s).denote parsers type)
      = some true ↔ view.text row = id s := fun s _ => by
    rw [h.denote, Value.compare, some.injEq, Cmp.apply, decide_eq_true_iff, id]
  rw [h.decode, equalsOne_map hone, List.map_id, Filter.satisfied, contains_iff_mem]

theorem decides_numbers {key : α → ℤ} (hdecode : ∀ view row, type.decode view row = .number (view.value row))
    (hdenote : ∀ a ∈ l, (mk a).denote parsers type = some (.number (key a))) :
    Decides type (.simpleTypeIn (l.map key)) (equalsOne parsers type (l.map mk)) := by
  intro view row _
  have hone : ∀ a ∈ l, compare .eq (some (.number (view.value row))) ((mk a).denote parsers type) = some true
      ↔ view.value row = key a := fun a ha => by
    rw [hdenote a ha, Value.compare, some.injEq, Cmp.apply, decide_eq_true_iff, Int.cast_inj]
  rw [hdecode, equalsOne_map hone, Filter.satisfied, contains_iff_mem]

/-- The kernel for a list. -/
theorem createFilter_list (h : Listable parsers type constants) (columnName : String) (value : Constant) :
    ∃ f, createFilter parsers type.storageType ⟨columnName, .isIn, value, constants.foldl .push (.strings [])⟩ = .ok f ∧
      Decides type f (equalsOne parsers type constants) := by
  cases type with
  | int width =>
    obtain ⟨numbers, rfl⟩ := exists_map_of_forall fun v hv => (h.2 v hv).imp fun n hn => hn.1
    refine ⟨.simpleTypeIn (numbers.map id), ?_, decides_numbers (fun _ _ => rfl) fun n _ => rfl⟩
    have hnarrow : numbers.map (narrow width.bits) = numbers.map id := map_congr_left fun n hn => by
      obtain ⟨_, heq, hrange⟩ := h.2 (.int n) (mem_map_of_mem hn)
      cases heq
      exact narrow_eq (by cases width <;> decide) hrange.1 hrange.2
    cases numbers with
    | nil => exact absurd rfl h.1
    | cons n numbers =>
      have hfirst : ConstantList.push (.strings []) (.int n) = .ints [n] := rfl
      rw [map_cons, foldl_cons, hfirst, push_map fun _ _ => rfl, ← hnarrow]
      rfl
  | date32 =>
    obtain ⟨texts, rfl⟩ := exists_map_of_forall fun v hv => (h v hv).imp fun s hs => hs.1
    have hday : ∀ s ∈ texts, ∃ day, parsers.date32 s = some day := fun s hs => by
      obtain ⟨_, heq, hsome⟩ := h (.string s) (mem_map_of_mem hs)
      cases heq
      exact isSome_iff_exists.mp hsome
    refine ⟨.simpleTypeIn (texts.map fun s => (parsers.date32 s).getD 0), ?_,
      decides_numbers (fun _ _ => rfl) fun s hs => ?_⟩
    · have hparse : texts.mapM (parseDate32 parsers) = .ok (texts.map fun s => (parsers.date32 s).getD 0) :=
        Fallible.mapM_eq_map fun s hs => by
          obtain ⟨day, hs⟩ := hday s hs
          rw [parseDate32, hs, getD_some]
          rfl
      rw [push_strings, nil_append, storageType, createFilter, ConstantList.getStrings, Fallible.ok_bind, hparse]
      rfl
    · obtain ⟨day, hs⟩ := hday s hs
      rw [Constant.denote, hs, map_some, getD_some]
  | char length =>
    obtain ⟨texts, rfl⟩ := exists_map_of_forall h.2
    refine ⟨.varLen32In texts, ?_, decides_texts (.inr ⟨length, h.1, rfl⟩)⟩
    rw [storageType, if_neg h.1, push_strings]
    rfl
  | string =>
    obtain ⟨texts, rfl⟩ := exists_map_of_forall h
    refine ⟨.varLen32In texts, ?_, decides_texts (.inl rfl)⟩
    rw [push_strings]
    rfl
  | decimal precision scale | boolean | float | double | date64 | timestamp unit | interval unit => exact h.elim

/-! ## Scans -/

/-- The arrays of a batch hold the columns of the table: no nulls where the
column has none, and numbers of 32 bits for characters. -/
structure Batch.Holds (b : Batch) (schema : Schema) : Prop where
  noNulls : ∀ name c colId, schema.field name = some (c, colId) → c.nullable = false →
    ∀ row < (b.getArrayView colId).length, (b.getArrayView colId).isValid row = true
  stores : ∀ name c colId, schema.field name = some (c, colId) →
    ∀ row < (b.getArrayView colId).length, c.type.Stores (b.getArrayView colId) row

namespace Restrictions

variable {schema : Schema} {c : Column} {colId : ℕ}

/-- All filters pass a position of a batch. -/
def passes (r : Restrictions) (b : Batch) (pos : ℕ) : Bool :=
  r.filters.all fun f => f.1.satisfied (b.getArrayView f.2) (pos + b.offset)

theorem push_passes (r : Restrictions) {f : Filter} (hf : r.filters = [] ∨ f ≠ .firstNotNull) (b : Batch) (pos : ℕ) :
    (r.push f colId hf).passes b pos = (r.passes b pos && f.satisfied (b.getArrayView colId) (pos + b.offset)) := by
  rw [passes, passes, push, all_append, all_cons, all_nil, Bool.and_true]

theorem add_notNull (parsers : Parsers) (r : Restrictions) {name : String}
    (hfield : schema.field name = some (c, colId)) : ∃ r', r.add parsers schema (notNullDescription name) = .ok r' ∧
      ∀ b pos, r'.passes b pos = (r.passes b pos && (b.getArrayView colId).isValid (pos + b.offset)) := by
  rw [add, show (notNullDescription name).columnName = name from rfl, hfield]
  by_cases hempty : r.filters = []
  · exact ⟨r.push .firstNotNull colId (.inl hempty), by simp [notNullDescription, hempty], r.push_passes _⟩
  · exact ⟨r.push .notNull colId (.inr Filter.noConfusion), by simp [notNullDescription, hempty], r.push_passes _⟩

theorem add_kernel (r : Restrictions) {f : Filter}
    (hfield : schema.field desc.columnName = some (c, colId)) (hop : desc.op ≠ .notnull)
    (hf : createFilter parsers c.type.storageType desc = .ok f) : ∃ r', r.add parsers schema desc = .ok r' ∧
      ∀ b pos, r'.passes b pos = (r.passes b pos && f.satisfied (b.getArrayView colId) (pos + b.offset)) := by
  refine ⟨r.push f colId (.inr (createFilter_ne_firstNotNull hf)), ?_, r.push_passes _⟩
  rw [add, hfield]
  simp only [hop, if_false]
  split
  · next f' hf' =>
    obtain rfl : f' = f := Except.ok.inj (hf'.symm.trans hf)
    rfl
  · next e he => exact absurd (he.symm.trans hf) (by simp)

variable {b : Batch} {pos : ℕ} {descs : List (FilterDescription × (Option Value → Option Bool))}

theorem cells_eq (hfield : schema.field c.name = some (c, colId)) :
    b.cells schema pos c.name = if (b.getArrayView colId).isValid (pos + b.offset) then
      some (c.type.decode (b.getArrayView colId) (pos + b.offset)) else none := by
  rw [Batch.cells, hfield, bind_some]

theorem row_lt (b : Batch) (colId : ℕ) {pos : ℕ} (hpos : pos < b.length) :
    pos + b.offset < (b.getArrayView colId).length := by
  have := b.inside colId
  omega

/-- The descriptions of a column that a kernel decides, each with its test. -/
structure Described (parsers : Parsers) (c : Column) (desc : FilterDescription)
    (test : Option Value → Option Bool) : Prop where
  columnName : desc.columnName = c.name
  op : desc.op ≠ .notnull
  kernel : ∃ f, createFilter parsers c.type.storageType desc = .ok f ∧ Decides c.type f test

section
variable (hfield : schema.field c.name = some (c, colId))
    (hdescs : ∀ d ∈ descs, Described parsers c d.1 d.2) (r : Restrictions)
include hfield hdescs r

theorem add_kernels :
    ∃ r', (descs.map Prod.fst).foldlM (add parsers schema) r = .ok r' ∧ ∀ b : Batch, b.Holds schema → ∀ pos < b.length,
      (r'.passes b pos ↔ r.passes b pos ∧ ∀ d ∈ descs,
        d.2 (some (c.type.decode (b.getArrayView colId) (pos + b.offset))) = some true) := by
  induction descs generalizing r with
  | nil => exact ⟨r, rfl, by simp⟩
  | cons d descs ih =>
    obtain ⟨hname, hop, f, hf, hdecides⟩ := hdescs d mem_cons_self
    obtain ⟨r₁, hadd, hpass₁⟩ := r.add_kernel (hname ▸ hfield) hop hf
    obtain ⟨r', hrest, hpass⟩ := ih (fun d hd => hdescs d (mem_cons_of_mem _ hd)) r₁
    refine ⟨r', ?_, fun b hb pos hpos => ?_⟩
    · rw [map_cons, foldlM_cons, hadd]
      exact hrest
    · have hstores := hb.stores _ c colId hfield _ (row_lt b colId hpos)
      rw [hpass b hb pos hpos, hpass₁, Bool.and_eq_true, hdecides _ _ hstores, forall_mem_cons, and_assoc]

/-- The scan keeps of what it kept before the rows with a value in the column
that passes all tests. -/
theorem add_column : ∃ r', (restrictColumn c (descs.map Prod.fst)).foldlM (add parsers schema) r = .ok r' ∧
      ∀ b : Batch, b.Holds schema → ∀ pos < b.length, (r'.passes b pos ↔ r.passes b pos ∧
          ∃ x, b.cells schema pos c.name = some x ∧ ∀ d ∈ descs, d.2 (some x) = some true) := by
  rw [restrictColumn]
  split
  · obtain ⟨r₁, hadd, hpass₁⟩ := add_notNull parsers r hfield
    obtain ⟨r', hrest, hpass⟩ := add_kernels hfield hdescs r₁
    refine ⟨r', ?_, fun b hb pos hpos => ?_⟩
    · rw [foldlM_cons, hadd]
      exact hrest
    · rw [hpass b hb pos hpos, hpass₁, Bool.and_eq_true, cells_eq hfield]
      split <;> next hvalid => simp [hvalid]
  · next hnull =>
    obtain ⟨r', hrest, hpass⟩ := add_kernels hfield hdescs r
    refine ⟨r', hrest, fun b hb pos hpos => ?_⟩
    have hvalid := hb.noNulls _ c colId hfield (Bool.eq_false_iff.mpr hnull) _ (row_lt b colId hpos)
    rw [hpass b hb pos hpos, cells_eq hfield, if_pos hvalid]
    simp

end

end Restrictions

/-! ## Predicates -/

section Predicates

variable {schema : Schema} {c : Column} {val v : Operand} {k : Constant} {cells : Cells}

section
variable (h : getColumnName schema val = some c)
include h

/-- A side of a comparison that is taken for a column is one, or a cast of one
with characters. -/
theorem getColumnName_cases : (∃ colId, schema.field c.name = some (c, colId)) ∧
      (val = .column c.name ∨ val = .castToString c.name ∧ c.type.isChar) := by
  have hfield {name} (h : (schema.field name).map Prod.fst = some c) :
      (∃ colId, schema.field c.name = some (c, colId)) ∧ name = c.name := by
    obtain ⟨⟨_, colId⟩, hfield, rfl⟩ := map_eq_some_iff.mp h
    obtain rfl : _ = name := by simpa using find?_some hfield
    exact ⟨⟨colId, hfield⟩, rfl⟩
  cases val with
  | column name =>
    obtain ⟨hfield, rfl⟩ := hfield h
    exact ⟨hfield, .inl rfl⟩
  | castToString name =>
    obtain ⟨h, hchar⟩ := filter_eq_some_iff.mp h
    obtain ⟨hfield, rfl⟩ := hfield h
    exact ⟨hfield, .inr ⟨rfl, hchar⟩⟩
  | constant value type => cases h
  | other type fn => cases h

theorem getColumnName_eval (parsers : Parsers) (b : Batch) (pos : ℕ) :
    val.eval parsers (b.cells schema pos) = b.cells schema pos c.name := by
  obtain ⟨⟨colId, hfield⟩, rfl | ⟨rfl, hchar⟩⟩ := getColumnName_cases h
  · rfl
  · obtain ⟨length, hlength⟩ : ∃ length, c.type = .char length := by
      cases htype : c.type <;> simp_all [isChar]
    rw [Operand.eval, cells_eq hfield, hlength, decode]
    split <;> simp_all

theorem getColumnName_baseType :
    val.baseType schema = some c.type ∨ c.type.isChar ∧ val.baseType schema = some .string := by
  obtain ⟨⟨colId, hfield⟩, rfl | ⟨rfl, hchar⟩⟩ := getColumnName_cases h
  · rw [Operand.baseType, hfield]
    exact .inl rfl
  · exact .inr ⟨hchar, rfl⟩

end

/-- A constant of the type of the operand means what it means for the column. -/
theorem getConstant_eval (parsers : Parsers) (cells : Cells) (hcol : getColumnName schema val = some c)
    (htype : v.baseType schema = val.baseType schema)
    (hk : getConstant v = some k) (hfits : c.type.isChar → ∃ s, k = .string s) :
    v.eval parsers cells = k.denote parsers c.type := by
  cases v with
  | constant value type =>
    have hdenote : k.denote parsers type = k.denote parsers c.type := by
      rcases getColumnName_baseType hcol with hbase | ⟨hchar, hbase⟩
      · rw [some.inj (htype.trans hbase)]
      · obtain ⟨s, rfl⟩ := hfits hchar
        rw [some.inj (htype.trans hbase)]
        cases hc : c.type <;> simp_all [isChar, Constant.denote]
    rw [← hdenote]
    cases value <;> cases hk <;> rfl
  | column name | castToString name | other type fn => cases hk

theorem Comparable.isString (h : Comparable parsers type cmp k) (hchar : type.isChar) : ∃ s, k = .string s := by
  cases type <;> cases hchar
  cases k with
  | string s => exact ⟨s, rfl⟩
  | int n | double x => simp [Comparable] at h

theorem compare_reverse (x y : Option Value) : compare cmp.reverse x y = compare cmp y x := by
  rcases x with _ | ⟨q⟩ | ⟨s⟩ <;> rcases y with _ | ⟨q'⟩ | ⟨s'⟩ <;> simp only [Value.compare, Cmp.apply_reverse]

theorem compare_none (y : Option Value) : compare cmp none y = none := rfl

theorem described_compare (h : Comparable parsers c.type cmp k) :
    Restrictions.Described parsers c ⟨c.name, .cmp cmp, k, .strings []⟩
      fun x => compare cmp x (k.denote parsers c.type) :=
  ⟨rfl, FilterOp.noConfusion, createFilter_compare h rfl⟩

variable {descs : List FilterDescription} {pred : Predicate} {vals : List Operand}

/-- What the restrictions of a predicate add to a scan. -/
def Restricts (parsers : Parsers) (schema : Schema) (pred : Predicate) (descs : List FilterDescription) : Prop :=
  ∀ r : Restrictions, ∃ r', descs.foldlM (Restrictions.add parsers schema) r = .ok r' ∧
    ∀ b : Batch, b.Holds schema → ∀ pos < b.length, (r'.passes b pos = true ↔
      r.passes b pos = true ∧ pred.eval parsers (b.cells schema pos) = some true)

theorem restricts_notIsNull (h : tryPushdownIntoBasetable schema (.notIsNull val) = some descs) :
    Restricts parsers schema (.notIsNull val) descs := by
  obtain ⟨c, hc, rfl⟩ := map_eq_some_iff.mp h
  obtain ⟨⟨colId, hfield⟩, -⟩ := getColumnName_cases hc
  intro r
  obtain ⟨r', hadd, hpass⟩ := add_notNull parsers r hfield
  refine ⟨r', by rw [foldlM_cons, hadd]; rfl, fun b _ pos _ => ?_⟩
  rw [hpass, eval, getColumnName_eval hc, cells_eq hfield]
  split <;> simp_all

/-- A predicate that is true for a value of the column which passes tests, each
with a kernel. -/
theorem restricts_column (hc : getColumnName schema val = some c)
    (tests : List (FilterDescription × (Option Value → Option Bool)))
    (htests : ∀ d ∈ tests, Restrictions.Described parsers c d.1 d.2)
    (hpred : ∀ cells, pred.eval parsers cells = some true ↔
      ∃ x, val.eval parsers cells = some x ∧ ∀ d ∈ tests, d.2 (some x) = some true) :
    Restricts parsers schema pred (restrictColumn c (tests.map Prod.fst)) := by
  obtain ⟨⟨colId, hfield⟩, -⟩ := getColumnName_cases hc
  intro r
  obtain ⟨r', hadd, hpass⟩ := add_column hfield htests r
  refine ⟨r', hadd, fun b hb pos hpos => ?_⟩
  rw [hpass b hb pos hpos, hpred, getColumnName_eval hc]

theorem restricts_compare (hc : getColumnName schema val = some c) (hcmp : Comparable parsers c.type cmp k)
    (hpred : ∀ cells, pred.eval parsers cells = compare cmp (val.eval parsers cells) (k.denote parsers c.type)) :
    Restricts parsers schema pred (restrictColumn c [⟨c.name, .cmp cmp, k, .strings []⟩]) := by
  refine restricts_column hc [(_, fun x => compare cmp x (k.denote parsers c.type))]
    (forall_mem_singleton.mpr (described_compare hcmp)) fun cells => ?_
  rw [hpred]
  cases val.eval parsers cells <;> simp [compare_none]

theorem restricts_between {lower upper : Operand} {lowerInclusive upperInclusive : Bool}
    (h : tryPushdownIntoBasetable schema (.between val lower upper lowerInclusive upperInclusive) = some descs)
    (hs : (between val lower upper lowerInclusive upperInclusive).Supported parsers schema) :
    Restricts parsers schema (.between val lower upper lowerInclusive upperInclusive) descs := by
  rw [tryPushdownIntoBasetable] at h
  split at h
  · cases h
  · next htype =>
    obtain ⟨hlower, hupper⟩ := not_or.mp htype
    split at h
    · next c l u hc hl hu =>
      obtain rfl := some.inj h
      have hcl := (hs c hc).1 l hl
      have hcu := (hs c hc).2 u hu
      have heval : ∀ cells, (between val lower upper lowerInclusive upperInclusive).eval parsers cells
          = Kleene.and
            (compare (if lowerInclusive then .gte else .gt) (val.eval parsers cells) (l.denote parsers c.type))
            (compare (if upperInclusive then .lte else .lt) (val.eval parsers cells)
              (u.denote parsers c.type)) := by
        intro cells
        rw [eval, getConstant_eval parsers cells hc (not_not.mp hlower).symm hl hcl.isString,
          getConstant_eval parsers cells hc (not_not.mp hupper).symm hu hcu.isString]
      refine restricts_column hc
        [(_, fun x => compare (if lowerInclusive then .gte else .gt) x (l.denote parsers c.type)),
          (_, fun x => compare (if upperInclusive then .lte else .lt) x (u.denote parsers c.type))]
        (forall_mem_cons.mpr ⟨described_compare hcl, forall_mem_singleton.mpr (described_compare hcu)⟩)
        fun cells => ?_
      rw [heval]
      cases val.eval parsers cells <;> simp [compare_none]
    · cases h

theorem equalsOne_none (constants : List Constant) : equalsOne parsers type constants none ≠ some true := by
  simp [equalsOne_eq_true, compare_none]

theorem oneOf_eval (hconstants : vals.mapM getConstant = some constants)
    (hmeans : ∀ v ∈ vals, ∀ k, getConstant v = some k → ∀ cells, v.eval parsers cells = k.denote parsers c.type) :
    (oneOf val vals).eval parsers cells = equalsOne parsers c.type constants (val.eval parsers cells) := by
  induction vals generalizing constants with
  | nil =>
    cases hconstants
    rfl
  | cons v vals ih =>
    rw [mapM_cons] at hconstants
    obtain ⟨k, hk, hrest⟩ := bind_eq_some_iff.mp hconstants
    obtain ⟨ks, hks, heq⟩ := bind_eq_some_iff.mp hrest
    cases heq
    have hv := hmeans v mem_cons_self k hk cells
    have htail := ih hks fun v hv => hmeans v (mem_cons_of_mem _ hv)
    rw [eval] at htail ⊢
    rw [foldr_cons, hv, htail, equalsOne, equalsOne, foldr_cons]

theorem restricts_oneOf (h : tryPushdownIntoBasetable schema (.oneOf val vals) = some descs)
    (hs : (oneOf val vals).Supported parsers schema) : Restricts parsers schema (.oneOf val vals) descs := by
  rw [tryPushdownIntoBasetable] at h
  split at h
  · next c constants hc hconstants =>
    obtain rfl := some.inj h
    obtain ⟨hlist, hmeans⟩ := hs c constants hc hconstants
    refine restricts_column hc [(_, equalsOne parsers c.type constants)]
      (forall_mem_singleton.mpr ⟨rfl, FilterOp.noConfusion, createFilter_list hlist c.name (.int 0)⟩)
      fun cells => ?_
    rw [oneOf_eval hconstants hmeans]
    cases val.eval parsers cells <;> simp [equalsOne_none]
  · cases h

/-- A supported predicate that is accepted restricts the scan to the rows on
which it is true. -/
theorem restricts_of_supported (h : tryPushdownIntoBasetable schema pred = some descs)
    (hs : pred.Supported parsers schema) : Restricts parsers schema pred descs := by
  cases pred with
  | notIsNull val => exact restricts_notIsNull h
  | compare predicate left right =>
    cases predicate with
    | isa => exact hs.elim
    | cmp cmp =>
      rw [tryPushdownIntoBasetable] at h
      split at h
      · cases h
      · next htype =>
        rw [not_not] at htype
        split at h
        · next c k hc hk =>
          obtain rfl := some.inj h
          have hcmp := hs.1 c k hc hk
          refine restricts_compare hc hcmp fun cells => ?_
          rw [eval, getConstant_eval parsers cells hc htype.symm hk hcmp.isString]
        · split at h
          · next c k hc hk =>
            obtain rfl := some.inj h
            have hcmp := hs.2 c k hc hk
            refine restricts_compare hc hcmp fun cells => ?_
            rw [eval, getConstant_eval parsers cells hc htype hk hcmp.isString, compare_reverse]
          · cases h
  | between val lower upper lowerInclusive upperInclusive => exact restricts_between h hs
  | oneOf val vals => exact restricts_oneOf h hs

end Predicates

/-! ## The filtered scan -/

/-- The kernels for a supported predicate can be made, and the rows that the
scan keeps are exactly those that pass the filters it had before and on which
the predicate is true, unless a position behind the batch, which the first
not-null kernel reads, gets past all filters. -/
theorem applyFilters_pushdown (parsers : Parsers) (schema : Schema) (pred : Predicate)
    (existing : List FilterDescription) {descs : List FilterDescription} {r : Restrictions}
    (hexisting : Restrictions.create parsers schema existing = .ok r)
    (haccepted : tryPushdownIntoBasetable schema pred = some descs) (hsupported : pred.Supported parsers schema) :
    ∃ r', Restrictions.create parsers schema (existing ++ descs) = .ok r' ∧ ∀ b : Batch, b.Holds schema →
      (r'.applyFilters b.offset b.length b.getArrayView = (r.selected b).filter (fun pos =>
          pred.eval parsers (b.cells schema pos) = some true) ↔
        ∀ p ∈ r'.overrun b, r'.survives b p = false) := by
  obtain ⟨r', hadd, hpass⟩ := restricts_of_supported haccepted hsupported r
  refine ⟨r', ?_, fun b hb => ?_⟩
  · rw [create, foldlM_append]
    exact Fallible.bind_eq_ok.mpr ⟨r, hexisting, hadd⟩
  · have hselected : r'.selected b = (r.selected b).filter fun pos =>
        pred.eval parsers (b.cells schema pos) = some true := by
      rw [selected, selected, List.filter_filter]
      refine filter_congr fun pos hpos => Bool.eq_iff_iff.mpr ?_
      rw [Bool.and_eq_true, decide_eq_true_iff, and_comm]
      exact hpass b hb pos (mem_range.mp hpos)
    rw [← hselected, applyFilters_eq, append_right_eq_self, map_eq_nil_iff]
    simp

/-- No texts of dates or decimals. -/
def noTexts : Parsers := ⟨fun _ => none, fun _ => none, fun _ _ _ => none⟩

/-- A table with one column. -/
def oneColumn (type : ColumnType) : Schema := ⟨[⟨"c", type, true⟩], by simp⟩

/-- A column of numbers of which the second is null. -/
def secondNull (value : ℤ) : ArrayView where
  length := 2
  nullCount := 1
  offset := 0
  validData _ := 1#8
  data _ := value
  offsets _ := 0
  bytes _ := 0
  noNulls h := absurd h (by decide)

def twoRows (value : ℤ) : Batch := ⟨0, 2, fun _ => secondNull value, by decide, fun _ => le_refl 2⟩

theorem twoRows_holds (value : ℤ) {type : ColumnType} (htype : type ≠ .char 1) :
    (twoRows value).Holds (oneColumn type) := by
  have hfield : ∀ name c colId, (oneColumn type).field name = some (c, colId) → c = ⟨"c", type, true⟩ :=
    fun name c colId h => by
      have hmem : c = ⟨"c", type, true⟩ ∧ colId = 0 := by simpa [oneColumn] using mem_of_find?_eq_some h
      exact hmem.1
  refine ⟨fun name c colId h hnull => ?_, fun name c colId h row _ hchar => ?_⟩
  · rw [hfield name c colId h] at hnull
    cases hnull
  · rw [hfield name c colId h] at hchar
    exact absurd hchar htype

/-- Of 7 and null, the rows smaller than 8. -/
theorem applyFilters_pushdown_numbers :
    let descs : List FilterDescription := [notNullDescription "c", ⟨"c", .cmp .lt, .int 8, .strings []⟩]
    ∃ r, Restrictions.create noTexts (oneColumn (.int .w8)) descs = .ok r ∧
      r.applyFilters 0 2 (fun _ => secondNull 7) = [0] := by
  have hsupported : (compare (.cmp .lt) (.column "c") (.constant (.integer 8) (.int .w8))).Supported noTexts
      (oneColumn (.int .w8)) := by
    refine ⟨fun c v hc hv => ?_, fun c v hc => ?_⟩
    · cases hc
      cases hv
      exact ⟨by decide, by decide⟩
    · cases hc
  obtain ⟨r, hr, hrows⟩ := applyFilters_pushdown noTexts (oneColumn (.int .w8)) _ [] rfl rfl hsupported
  cases hr
  exact ⟨_, rfl, ((hrows (twoRows 7) (twoRows_holds 7 ColumnType.noConfusion)).mpr (by decide)).trans (by decide)⟩

/-- What the scan of two rows keeps, if the predicate is left to it. -/
def pushedDown (type : ColumnType) (pred : Predicate) (value : ℤ) : Option (Except Failure (List ℕ)) :=
  (tryPushdownIntoBasetable (oneColumn type) pred).map fun descs =>
    (Restrictions.create noTexts (oneColumn type) descs).map fun r => r.applyFilters 0 2 (twoRows value).getArrayView

def trueRows (type : ColumnType) (pred : Predicate) (value : ℤ) : List ℕ :=
  (List.range 2).filter fun pos => pred.eval noTexts ((twoRows value).cells (oneColumn type) pos) = some true

/-- A null-safe comparison of integers and a comparison of truth values are
accepted, but there is no kernel for them; a number that the column cannot hold
is cut off; and characters are not ordered as the numbers that they are stored
as. -/
theorem pushdown_differs :
    let isa := Predicate.compare .isa (.column "c") (.constant (.integer 5) (.int .w32))
    let truth := Predicate.compare (.cmp .eq) (.column "c") (.constant (.integer 1) .boolean)
    let small := Predicate.compare (.cmp .lt) (.column "c") (.constant (.integer 300) (.int .w8))
    let char := Predicate.compare (.cmp .lt) (.column "c") (.constant (.string [0xc3, 0xa9]) (.char 1))
    (pushedDown (.int .w32) isa 5 = some (.error .badVariantAccess) ∧ trueRows (.int .w32) isa 5 = [0]) ∧
    pushedDown .boolean truth 1 = some (.error (.runtimeError "unsupported type in filterbool")) ∧
    (pushedDown (.int .w8) small 100 = some (.ok []) ∧ trueRows (.int .w8) small 100 = [0]) ∧
    pushedDown (.char 1) char 0x81c4 = some (.ok [0]) ∧ trueRows (.char 1) char 0x81c4 = [] := by
  exact ⟨⟨rfl, by decide⟩, rfl, ⟨rfl, by decide⟩, rfl, by decide⟩

end GengoDB.Scan
