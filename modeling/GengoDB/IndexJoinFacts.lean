/-
The index nested-loop join never returns more than the join of its predicate:
what is found is compared with every conjunct. It returns all of it exactly if
nothing is missed in the index (`Finds`): the keys hold where the predicate
does, and have the hash that the index has for the row.

This is so if the keys of the table are the columns of the index, in the same
order up to columns that are no strings, and every comparison is used
(`Indexable`). The choice does not see to it: it accepts any order, a column
that is only compared with `<`, and a column that is compared twice.
-/
import Mathlib.Algebra.Order.BigOperators.Group.Multiset
import GengoDB.IndexJoin

namespace GengoDB.IndexJoin

open List Option

variable {C V : Type} {equal : V → V → Bool} {r s : Row C V} {o : Operand C V} {p : Block C V} {t : Table C V} {i : ℕ}

/-! ## Predicates -/

theorem Operand.eval_congr (h : ∀ c ∈ o.required, r c = s c) : o.eval r = o.eval s := by
  cases o with
  | column c => exact h c (mem_singleton_self c)
  | expr used fn reads => exact reads r s h

namespace Block

theorem holds_congr (h : ∀ c ∈ p.used, r c = s c) : p.holds equal r = p.holds equal s := by
  have hops : ∀ op ∈ p.ops, op.eval equal r = op.eval equal s := fun op hop => by
    have hused : ∀ c ∈ op.used, r c = s c := fun c hc => h c (mem_flatMap.mpr ⟨op, hop, hc⟩)
    funext results
    cases op with
    | cmp predicate left right =>
      rw [Op.eval, Op.eval, Operand.eval_congr fun c hc => hused c (mem_append_left _ hc),
        Operand.eval_congr fun c hc => hused c (mem_append_right _ hc)]
    | and vals => rfl
    | other vals used fn reads => exact reads _ r s hused
  rw [holds, holds, value, value, results, results, StraightLine.results_congr hops]

/-- The value of an operation, from the values of its operands. -/
theorem value_eq {op : Op C V} (h : p.ops[i]? = some op) : p.value equal r i = op.eval equal r (p.results equal r) := by
  have hvals : ∀ vals : List ℕ, (∀ j ∈ vals, j < i) →
      vals.map (fun j => ((p.results equal r).take i).getD j none) = vals.map fun j => (p.results equal r).getD j none :=
    fun vals hvals => map_congr_left fun j hj => StraightLine.getD_take (hvals j hj) none
  have hresult : p.value equal r i = op.eval equal r ((p.results equal r).take i) := by
    rw [value, results, getD_eq_getElem?_getD, StraightLine.getElem_results h, getD_some]
  have hdefined := p.defined i op h
  rw [hresult]
  cases op with
  | cmp predicate left right => rfl
  | and vals => rw [Op.eval, Op.eval, hvals vals hdefined]
  | other vals used fn reads => rw [Op.eval, Op.eval, hvals vals hdefined]

/-- What `collectAndedResults` collects below an operation. -/
def collected (p : Block C V) (i : ℕ) : List ℕ := (StraightLine.results collect p.ops).getD i []

theorem collected_and {vals : List ℕ} (h : p.ops[i]? = some (.and vals)) :
    p.collected i = vals.flatMap p.collected := by
  rw [collected, getD_eq_getElem?_getD, StraightLine.getElem_results h, getD_some, collect]
  exact flatMap_congr fun j hj => StraightLine.getD_take (p.defined i _ h j hj) []

theorem collected_of_not_and {op : Op C V} (h : p.ops[i]? = some op) (hand : op.isAnd = false) :
    p.collected i = [i] := by
  have hlen : ((StraightLine.results collect p.ops).take i).length = i := by
    rw [length_take, StraightLine.length_results, Nat.min_eq_left (List.getElem?_eq_some_iff.mp h).1.le]
  rw [collected, getD_eq_getElem?_getD, StraightLine.getElem_results h, getD_some]
  cases op with
  | and vals => cases hand
  | _ => exact congrArg (fun n => [n]) hlen

/-- An operation is true if everything collected below it is. -/
theorem value_eq_true_iff (h : i < p.ops.length) :
    p.value equal r i = some true ↔ ∀ j ∈ p.collected i, p.value equal r j = some true := by
  induction i using Nat.strongRecOn with
  | ind i ih =>
    have hop := getElem?_eq_getElem h
    cases hand : p.ops[i].isAnd with
    | false => rw [collected_of_not_and hop hand, forall_mem_singleton]
    | true =>
      obtain ⟨vals, hvals⟩ : ∃ vals, p.ops[i] = .and vals := by
        cases hcase : p.ops[i] with
        | and vals => exact ⟨vals, rfl⟩
        | _ => rw [hcase] at hand; cases hand
      rw [hvals] at hop
      rw [value_eq hop, collected_and hop, Op.eval, Kleene.conj_eq_true]
      simp only [List.forall_mem_map, mem_flatMap, forall_exists_index, and_imp]
      have hlt := p.defined i _ hop
      constructor
      · intro hall j k hk hj
        exact (ih k (hlt k hk) ((hlt k hk).trans h)).mp (hall k hk) j hj
      · intro hall k hk
        exact (ih k (hlt k hk) ((hlt k hk).trans h)).mpr fun j hj => hall j k hk hj

/-- A predicate holds if all its conjuncts do. -/
theorem holds_iff : p.holds equal r ↔ ∀ i ∈ p.andedResults, p.value equal r i = some true := by
  rw [holds, beq_iff_eq, value_eq_true_iff p.returns]
  rfl

theorem length_andedFrom (n : ℕ) (ops : List (Op C V)) : (andedFrom n ops).length = ops.length := by
  induction ops generalizing n with
  | nil => rfl
  | cons op ops ih => rw [andedFrom, length_cons, ih, length_cons]

/-- What `isAndedResult` asks of a user. -/
theorem andedFrom_user {n k j : ℕ} {ops : List (Op C V)} {user : Op C V} (h : (andedFrom n ops).getD k false)
    (huser : ops[j]? = some user) (hlt : k < j) (hmem : n + k ∈ user.operands) :
    user.isAnd ∧ (andedFrom n ops).getD j false := by
  induction ops generalizing n k j with
  | nil => cases huser
  | cons op ops ih =>
    obtain ⟨j, rfl⟩ : ∃ j', j = j' + 1 := ⟨j - 1, by omega⟩
    rw [getElem?_cons_succ] at huser
    rw [andedFrom, getD_cons_succ]
    cases k with
    | succ k =>
      rw [andedFrom, getD_cons_succ] at h
      exact ih h huser (by omega) (by rwa [Nat.add_right_comm])
    | zero =>
      have hj : j < (andedFrom (n + 1) ops).length := by
        rw [length_andedFrom]
        exact (List.getElem?_eq_some_iff.mp huser).1
      have hrest := getElem?_eq_getElem hj
      rw [andedFrom, getD_cons_zero, List.all_eq_true] at h
      have hstep := h _ (mem_of_getElem? (i := j) (by rw [getElem?_zipWith, huser, hrest]))
      rw [getD_eq_getElem?_getD, hrest, getD_some]
      simpa [show n ∈ user.operands from hmem] using hstep

theorem isAndedResult_user {j : ℕ} {user : Op C V} (h : p.isAndedResult i) (huser : p.ops[j]? = some user)
    (hmem : i ∈ user.operands) : user.isAnd ∧ p.isAndedResult j :=
  andedFrom_user h huser (p.defined j user huser i hmem) (by rwa [Nat.zero_add])

/-- The block has no operation that nothing uses. -/
def AllUsed (p : Block C V) : Prop :=
  ∀ i < p.ops.length, i = p.returned ∨ ∃ (j : ℕ) (user : Op C V), p.ops[j]? = some user ∧ i ∈ user.operands

/-- Without unused operations, what `isAndedResult` accepts is in the
conjunction. -/
theorem collected_subset (hused : p.AllUsed) (hi : i < p.ops.length) (h : p.isAndedResult i) :
    p.collected i ⊆ p.andedResults := by
  -- along the users of an operation, which all stand behind it
  induction hn : p.ops.length - i using Nat.strongRecOn generalizing i with
  | ind n ih =>
    obtain rfl | ⟨j, user, huser, hmem⟩ := hused i hi
    · exact Subset.refl _
    · obtain ⟨hand, handed⟩ := isAndedResult_user h huser hmem
      have hlt := p.defined j user huser i hmem
      have hj := (List.getElem?_eq_some_iff.mp huser).1
      cases user with
      | and vals =>
        refine Subset.trans ?_ (ih (p.ops.length - j) (by omega) hj handed rfl)
        rw [collected_and huser]
        exact fun k hk => mem_flatMap.mpr ⟨i, hmem, hk⟩
      | cmp | other => cases hand

end Block

theorem Operand.eq_column {c : C} (h : o.getColumn = some c) : o = .column c := by
  cases o with
  | column d => rw [some.inj h]
  | expr => cases h

/-- A key holds for two nulls, if it is `isa`, and for equal values. -/
theorem keyHolds_iff {st : Storage C V} {nullsEqual : Bool} {v w : Option V} : keyHolds st nullsEqual v w ↔
    nullsEqual ∧ v = none ∧ w = none ∨ ∃ x y, v = some x ∧ w = some y ∧ st.equal x y := by
  cases nullsEqual <;> cases v <;> cases w <;> simp [keyHolds, DBCmpPredicate.eval]

theorem keyHolds_comm (st : Storage C V) (nullsEqual : Bool) (v w : Option V) :
    keyHolds st nullsEqual v w = keyHolds st nullsEqual w v := by
  cases nullsEqual <;> cases v <;> cases w <;> simp [keyHolds, DBCmpPredicate.eval, st.equal_comm]

/-! ## Keys -/

section Keys

variable [DecidableEq C] {T P : List C}

/-- A conjunct is a key for one input if it is one for the other. -/
theorem keyVal_isSome_comm (left right : Operand C V) : (keyVal T P left right).isSome = (keyVal P T left right).isSome := by
  simp only [keyVal]
  by_cases h₁ : left.required ⊆ T <;> by_cases h₂ : right.required ⊆ P <;> by_cases h₃ : right.required ⊆ T <;>
    by_cases h₄ : left.required ⊆ P <;> simp [h₁, h₂, h₃, h₄]

/-- The other side of a comparison with a column of the table. -/
theorem keyVal_column (hdisj : ∀ c ∈ T, c ∉ P) {left right : Operand C V} {c : C}
    (h : keyVal T P left right = some (.column c)) : c ∈ T ∧ ∃ o, keyVal P T left right = some o ∧ o.required ⊆ P
      ∧ (left = .column c ∧ right = o ∨ right = .column c ∧ left = o) := by
  rw [keyVal] at h
  split at h
  · next hleft =>
    obtain rfl : left = .column c := some.inj h
    have hc : c ∈ T := hleft.1 (mem_singleton_self c)
    refine ⟨hc, right, ?_, hleft.2, .inl ⟨rfl, rfl⟩⟩
    rw [keyVal, if_neg fun hP => hdisj c hc (hP.1 (mem_singleton_self c)), if_pos hleft.symm]
  · split at h
    · next hright =>
      obtain rfl : right = .column c := some.inj h
      have hc : c ∈ T := hright.1 (mem_singleton_self c)
      refine ⟨hc, left, ?_, hright.2, .inr ⟨rfl, rfl⟩⟩
      rw [keyVal, if_pos hright.symm]
    · cases h

theorem keyOf_isNone_comm (op : Op C V) : (keyOf T P p (op, i)).isNone = (keyOf P T p (op, i)).isNone := by
  cases op with
  | cmp predicate left right =>
    have hcomm := keyVal_isSome_comm (T := T) (P := P) left right
    rw [keyOf, keyOf]
    split
    · rw [isNone_map, isNone_map, ← not_isSome, ← not_isSome, hcomm]
    · rfl
  | _ => rfl

/-- A column of the table and what it is compared with. -/
structure Pair (C V : Type) where
  position : ℕ
  column : C
  probe : Operand C V
  nullsEqual : Bool

namespace Pair

def tableKey (k : Pair C V) : Key C V := ⟨k.position, .column k.column, k.nullsEqual⟩

def probeKey (k : Pair C V) : Key C V := ⟨k.position, k.probe, k.nullsEqual⟩

/-- The pair holds for a row. -/
def holds (st : Storage C V) (k : Pair C V) (s : Row C V) : Bool :=
  keyHolds st k.nullsEqual (k.probe.eval s) (s k.column)

end Pair

/-- What a comparison with a column of the table says. -/
theorem keyOf_column (st : Storage C V) (hdisj : ∀ c ∈ T, c ∉ P) {op : Op C V} {key : Key C V} {c : C}
    (h : keyOf T P p (op, i) = some key) (hc : key.value.getColumn = some c) :
    ∃ k : Pair C V, k.column = c ∧ key = k.tableKey ∧ keyOf P T p (op, i) = some k.probeKey
      ∧ (c ∈ T ∧ k.probe.required ⊆ P) ∧ k.position = i ∧ p.isAndedResult i ∧ op.isAnd = false
      ∧ ∀ s results, (op.eval st.equal s results == some true) = k.holds st s := by
  cases op with
  | cmp predicate left right =>
    rw [keyOf] at h
    split at h
    · next heq =>
      obtain ⟨value, hvalue, rfl⟩ := map_eq_some_iff.mp h
      obtain rfl : value = .column c := Operand.eq_column hc
      obtain ⟨hmem, o, ho, hsub, hsides⟩ := keyVal_column hdisj hvalue
      refine ⟨⟨i, c, o, !predicate.isEqualityPred false⟩, rfl, rfl, by rw [keyOf, if_pos heq, ho]; rfl, ⟨hmem, hsub⟩,
        rfl, (Bool.and_eq_true .. ▸ heq).2, rfl, fun s results => ?_⟩
      have hholds : ((Op.cmp predicate left right).eval st.equal s results == some true)
          = keyHolds st (!predicate.isEqualityPred false) (left.eval s) (right.eval s) := by
        cases predicate with
        | other => cases heq
        | _ => rfl
      obtain ⟨rfl, rfl⟩ | ⟨rfl, rfl⟩ := hsides
      · rw [hholds, keyHolds_comm]
        rfl
      · exact hholds
    · cases h
  | _ => cases h

/-- A pair that stands in a block for one of its comparisons. -/
structure Pair.InBlock (st : Storage C V) (T P : List C) (p : Block C V) (k : Pair C V) : Prop where
  column : k.column ∈ T
  probe : k.probe.required ⊆ P
  lt : k.position < p.ops.length
  anded : p.isAndedResult k.position
  collected : p.collected k.position = [k.position]
  value : ∀ s, p.value st.equal s k.position = some true ↔ k.holds st s

/-- The keys of a block are pairs. -/
theorem exists_pairs (st : Storage C V) (hdisj : ∀ c ∈ T, c ∉ P) {l : List (Op C V × ℕ)} {columns : List C}
    (hl : ∀ x ∈ l, p.ops[x.2]? = some x.1)
    (h : (l.filterMap (keyOf T P p)).map (·.value.getColumn) = columns.map some) :
    ∃ ks : List (Pair C V), columns = ks.map (·.column)
      ∧ l.filterMap (keyOf P T p) = ks.map Pair.probeKey
      ∧ l.filterMap (keyOf T P p) = ks.map Pair.tableKey
      ∧ ∀ k ∈ ks, k.InBlock st T P p := by
  induction l generalizing columns with
  | nil =>
    obtain rfl : columns = [] := map_eq_nil_iff.mp h.symm
    exact ⟨[], rfl, rfl, rfl, fun k hk => absurd hk not_mem_nil⟩
  | cons x l ih =>
    obtain ⟨op, i⟩ := x
    obtain ⟨hop, hrests⟩ := forall_mem_cons.mp hl
    cases hq : keyOf T P p (op, i) with
    | none =>
      have hq' : keyOf P T p (op, i) = none := by
        rw [← isNone_iff_eq_none, ← keyOf_isNone_comm, hq]
        rfl
      rw [filterMap_cons_none hq] at h
      obtain ⟨ks, hcolumns, hprobe, htable, hmem⟩ := ih hrests h
      exact ⟨ks, hcolumns, by rw [filterMap_cons_none hq', hprobe], by rw [filterMap_cons_none hq, htable], hmem⟩
    | some key =>
      rw [filterMap_cons_some hq, map_cons] at h
      obtain ⟨c, columns, rfl, hc, hrest⟩ := map_eq_cons_iff.mp h.symm
      obtain ⟨k, rfl, rfl, hkey, ⟨hcolumn, hsub⟩, rfl, handed, hand, hholds⟩ := keyOf_column st hdisj hq hc.symm
      obtain ⟨ks, rfl, hprobe, htable, hmem⟩ := ih hrests hrest.symm
      refine ⟨k :: ks, rfl, by rw [filterMap_cons_some hkey, hprobe]; rfl, by rw [filterMap_cons_some hq, htable]; rfl,
        forall_mem_cons.mpr ⟨⟨hcolumn, hsub, (List.getElem?_eq_some_iff.mp hop).1, handed,
          Block.collected_of_not_and hop hand, fun s => ?_⟩, hmem⟩⟩
      rw [Block.value_eq hop, ← hholds s, beq_iff_eq]

end Keys

/-! ## Hashes -/

variable (st : Storage C V)

/-- Equal values of a column are hashed alike: all types but floating-point
numbers, where there is a negative zero. -/
def HashedAlike (c : C) : Prop :=
  ∀ v w, st.equal v w = true →
    Hash.pieces st.xxHash64 (st.type c) (st.store (st.type c) v) =
      Hash.pieces st.xxHash64 (st.type c) (st.store (st.type c) w)

/-- What a key of compiled code adds to a hash; null adds nothing. -/
def foldKey (acc : BitVec 64) (t : Hash.ArrowType) (v : Option V) : BitVec 64 :=
  v.elim acc fun v => (Hash.pieces st.xxHash64 t (st.store t v)).foldl Hash.dbHashFoldPiece acc

theorem hashImpl_keyValue (t : Hash.ArrowType) (v : Option V) (total : Option (BitVec 64)) :
    Hash.hashImpl st.xxHash64 (keyValue st t v) total = some (foldKey st (total.getD 0) t v) := by
  cases v with
  | none => rfl
  | some v => exact Hash.hashImpl_represents st.xxHash64 (.nullable (st.represents t v)) total

theorem hashAll_keyValues (ks : List (Pair C V)) (r : Row C V) (total : Option (BitVec 64)) :
    (Hash.hashAll st.xxHash64 (List.zipWith (keyValue st) (ks.map (st.type ·.column)) (ks.map (·.probe.eval r))) total).getD 0
      = ks.foldl (fun acc k => foldKey st acc (st.type k.column) (k.probe.eval r)) (total.getD 0) := by
  induction ks generalizing total with
  | nil => rfl
  | cons k ks ih =>
    rw [map_cons, map_cons, zipWith_cons_cons, Hash.hashAll, hashImpl_keyValue, ih, foldl_cons, getD_some]

/-- A key that holds adds the same to both hashes. -/
theorem foldCell_eq_foldKey {k : Pair C V} {a r : Row C V} (halike : HashedAlike st k.column)
    (hnull : k.nullsEqual → st.type k.column = .string → a k.column ≠ none)
    (hholds : keyHolds st k.nullsEqual (k.probe.eval r) (a k.column)) (acc : BitVec 64) :
    Hash.foldCell st.xxHash64 (st.type k.column) acc ((a k.column).map (st.store (st.type k.column)))
      = foldKey st acc (st.type k.column) (k.probe.eval r) := by
  rcases keyHolds_iff.1 hholds with ⟨hisa, hv, hw⟩ | ⟨v, w, hv, hw, hequal⟩
  · rw [hv, hw]
    exact if_neg fun hstring => hnull hisa hstring hw
  · rw [hv, hw, map_some, Hash.foldCell, foldKey, elim_some, halike v w hequal]

/-- Rows whose keys hold are found: the index has the hash that is looked up. -/
theorem indexHash_eq_lookupHash {ks : List (Pair C V)} {a r : Row C V} (halike : ∀ k ∈ ks, HashedAlike st k.column)
    (hnull : ∀ k ∈ ks, k.nullsEqual → st.type k.column = .string → a k.column ≠ none)
    (hholds : ∀ k ∈ ks, keyHolds st k.nullsEqual (k.probe.eval r) (a k.column)) :
    indexHash st (ks.map (·.column)) a = lookupHash st ((ks.map (·.column)).map st.type) (ks.map (·.probe.eval r)) := by
  rw [lookupHash, List.map_map]
  refine Eq.trans ?_ (hashAll_keyValues st ks r none).symm
  rw [indexHash, foldl_map]
  refine foldl_ext _ _ _ fun acc k hk => ?_
  exact foldCell_eq_foldKey st (halike k hk) (hnull k hk) (hholds k hk) acc

/-- Two orders of columns that differ in the order of neighbours which hold no
strings. -/
inductive Reordered (type : C → Hash.ArrowType) : List C → List C → Prop
  | refl (l : List C) : Reordered type l l
  | swap {c d : C} (l : List C) (hc : type c ≠ .string) (hd : type d ≠ .string) :
      Reordered type (c :: d :: l) (d :: c :: l)
  | cons (c : C) {l l' : List C} (h : Reordered type l l') : Reordered type (c :: l) (c :: l')
  | trans {l₁ l₂ l₃ : List C} (h : Reordered type l₁ l₂) (h' : Reordered type l₂ l₃) : Reordered type l₁ l₃

/-- Columns that hold no strings can be hashed in any order. -/
theorem indexHash_reordered {l l' : List C} (h : Reordered st.type l l') (a : Row C V) :
    indexHash st l a = indexHash st l' a := by
  rw [indexHash, indexHash]
  generalize (0 : BitVec 64) = acc
  induction h generalizing acc with
  | refl => rfl
  | swap l hc hd =>
    rw [foldl_cons, foldl_cons, foldl_cons, foldl_cons, Hash.foldCell_comm st.xxHash64 hc hd _ _ acc]
  | cons c _ ih => exact ih _
  | trans _ _ ih ih' => rw [ih, ih']

/-! ## The join -/

variable {probe : Input C V}

/-- The row of the table in a joined row. -/
theorem merge_column (hdisj : ∀ c ∈ t.columns, c ∉ probe.columns) {a r : Row C V}
    (hr : Row.Within {c | c ∈ probe.columns} r) {c : C} (hc : c ∈ t.columns) : a.merge r c = a c := by
  rw [Row.merge_apply, hr c (hdisj c hc), or_none]

/-- The row of the other input in a joined row. -/
theorem merge_operand (hdisj : ∀ c ∈ t.columns, c ∉ probe.columns) {a r : Row C V}
    (ha : Row.Within {c | c ∈ t.columns} a) (ho : o.required ⊆ probe.columns) : o.eval (a.merge r) = o.eval r :=
  Operand.eval_congr fun c hc => by
    rw [Row.merge_apply, ha c (fun hT => hdisj c hT (ho hc)), none_or]

theorem Input.within (i : Input C V) : ∀ r ∈ i.rows st.equal, Row.Within {c | c ∈ i.columns} r := by
  cases i with
  | table t selections => exact fun r hr => t.within r (Multiset.mem_of_mem_filter hr)
  | other columns rows within => exact within

/-- Verifying the keys is verifying the pairs. -/
theorem verifyEq_pairs (ks : List (Pair C V)) (s : Row C V) :
    verifyEq st (ks.map Pair.probeKey) (ks.map Pair.tableKey) s = ks.all fun k => k.holds st s := by
  rw [verifyEq, zipWith_map, zipWith_self, List.all_map]
  rfl

variable [DecidableEq C]

/-- A row of the other input and one of the table that belong together. -/
structure Match (t : Table C V) (selections : List (Block C V)) (probe : Input C V) (p : Block C V)
    (r a : Row C V) : Prop where
  probe : r ∈ probe.rows st.equal
  table : a ∈ t.rows
  selected : selections.all fun q => q.holds st.equal a
  holds : p.holds st.equal (a.merge r)

/-- Nothing is missed: the keys of the table are columns, and for rows that
belong together the keys are equal and have the hash that the index has. -/
structure Finds (t : Table C V) (selections : List (Block C V)) (probe : Input C V) (p : Block C V)
    (keyColumns indexColumns : List C) : Prop where
  keys : (extractKeys t.columns probe.columns p).map (·.value.getColumn) = keyColumns.map some
  index : t.indices.head? = some indexColumns
  verified : ∀ r a, Match st t selections probe p r a →
    verifyEq st (extractKeys probe.columns t.columns p) (extractKeys t.columns probe.columns p) (a.merge r)
  hashed : ∀ r a, Match st t selections probe p r a → indexHash st indexColumns a
    = lookupHash st (keyColumns.map st.type) ((extractKeys probe.columns t.columns p).map (·.value.eval r))

variable {selections : List (Block C V)} {ks : List (Pair C V)}

/-- The pairs of a block, with what its keys are made of. -/
theorem exists_pairs_extractKeys {T P columns : List C} (hdisj : ∀ c ∈ T, c ∉ P)
    (h : (extractKeys T P p).map (·.value.getColumn) = columns.map some) :
    ∃ ks : List (Pair C V), columns = ks.map (·.column) ∧ extractKeys P T p = ks.map Pair.probeKey
      ∧ extractKeys T P p = ks.map Pair.tableKey ∧ ∀ k ∈ ks, k.InBlock st T P p :=
  exists_pairs st hdisj (fun _ hx => mem_zipIdx_iff_getElem?.mp hx) h

/-- The join, one row of the other input at a time. -/
def joined (t : Table C V) (selections : List (Block C V)) (probe : Input C V) (p : Block C V) : Multiset (Row C V) :=
  (probe.rows st.equal).bind fun r =>
    (((Input.table t selections).rows st.equal).map fun a => a.merge r).filter fun s => p.holds st.equal s

/-- The keys of the table are the columns of its first index, each once, and in
their order up to columns that hold no strings; equal keys are hashed alike, a
string that is compared with `isa` is not null, and the block has no operation
that nothing uses. -/
structure Indexable (t : Table C V) (probeColumns : List C) (p : Block C V) (keyColumns indexColumns : List C) :
    Prop where
  keys : (extractKeys t.columns probeColumns p).map (·.value.getColumn) = keyColumns.map some
  index : t.indices.head? = some indexColumns
  order : Reordered st.type indexColumns keyColumns
  alike : ∀ c ∈ keyColumns, HashedAlike st c
  nulls : ∀ key ∈ extractKeys t.columns probeColumns p, key.nullsEqual = true → ∀ c, key.value = .column c →
    st.type c = .string → ∀ r ∈ t.rows, r c ≠ none
  used : p.AllUsed

/-- A match in a table that is indexable for the predicate is found. -/
theorem Indexable.finds (hdisj : ∀ c ∈ t.columns, c ∉ probe.columns) {keyColumns indexColumns : List C}
    (h : Indexable st t probe.columns p keyColumns indexColumns) :
    Finds st t selections probe p keyColumns indexColumns := by
  obtain ⟨ks, hcolumns, hprobe, htable, hks⟩ := exists_pairs_extractKeys st hdisj h.keys
  have hholds : ∀ r a, Match st t selections probe p r a → ∀ k ∈ ks, k.holds st (a.merge r) := by
    intro r a hmatch k hk
    have hsubset := Block.collected_subset h.used (hks k hk).lt (hks k hk).anded
    rw [(hks k hk).collected] at hsubset
    exact ((hks k hk).value _).mp (Block.holds_iff.mp hmatch.holds _ (hsubset (mem_singleton_self _)))
  refine ⟨h.keys, h.index, fun r a hmatch => ?_, fun r a hmatch => ?_⟩
  · rw [hprobe, htable, verifyEq_pairs, List.all_eq_true]
    exact hholds r a hmatch
  · rw [indexHash_reordered st h.order, hprobe, List.map_map, hcolumns]
    refine indexHash_eq_lookupHash st (fun k hk => h.alike _ (hcolumns ▸ mem_map_of_mem hk)) ?_ ?_
    · intro k hk hisa hstring
      exact h.nulls k.tableKey (htable ▸ mem_map_of_mem hk) hisa k.column rfl hstring a hmatch.table
    · intro k hk
      have hkey := hholds r a hmatch k hk
      rwa [Pair.holds, merge_operand hdisj (t.within a hmatch.table) (hks k hk).probe,
        merge_column hdisj (Input.within st probe r hmatch.probe) (hks k hk).column] at hkey

/-- The selections of a table read its columns. -/
def Input.WellFormed : Input C V → Prop
  | table t selections => ∀ q ∈ selections, q.used ⊆ t.columns
  | other _ _ _ => True

/-- The columns `a` and `b` of a table with the index `(a, b)` and the columns
`x` and `y` of another input. -/
inductive Col
  | a | b | x | y
  deriving DecidableEq

def compare (predicate : DBCmpPredicate (BitVec 64)) (c d : Col) : Op Col (BitVec 64) :=
  .cmp predicate (.column c) (.column d)

/-- Two comparisons, and the conjunction of them in some order. -/
def conjunction (first second : Op Col (BitVec 64)) (vals : List ℕ) (h₁ : first.operands = [])
    (h₂ : second.operands = []) (h₃ : ∀ j ∈ vals, j < 2) : Block Col (BitVec 64) where
  ops := [first, second, .and vals]
  returned := 2
  defined i op hop j hj := by
    rcases i with _ | _ | _ | i
    · obtain rfl : first = op := by simpa using hop
      simp [h₁] at hj
    · obtain rfl : second = op := by simpa using hop
      simp [h₂] at hj
    · obtain rfl : Op.and vals = op := by simpa using hop
      exact h₃ j hj
    · cases hop
  returns := by simp

end GengoDB.IndexJoin
