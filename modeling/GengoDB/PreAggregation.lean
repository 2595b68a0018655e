/-
Pre-aggregation hash tables (`PreAggregationHashtable`).

A worker aggregates into a fragment: a table of 1024 slots, in which a new
entry replaces what its slot held, over 64 buffers that keep every entry made
(`LookupPreAggrHtFragment`, `PreAggregationHashtableFragment::insert`). `merge`
takes the buffers of one partition from all fragments, and makes a table of
chains of them: an entry is combined into one with its key, or becomes the head
of its chain. The pointer to the head carries, in its low 16 bits, a filter of
the hashes in the chain.

`combine` is the addition of a commutative semigroup. Whatever the hash
function, the masks of the filter, the addresses of the entries, and the order
in which partitions and fragments are merged, the table has one entry for each
key of the input, with the sum of the key's values, and a lookup finds it
(`merge_complete`).
-/
import Mathlib.Algebra.BigOperators.Group.List.Basic
import Mathlib.Algebra.Group.WithOne.Basic
import Mathlib.Data.List.Perm.Lattice

namespace GengoDB.PreAggregation

open Function List

/-! ## Values of a key -/

section Combined

variable {ι K A : Type} [DecidableEq K] [AddCommSemigroup A]

/-- The combination of the values of a key; zero if it has none. -/
def combined (key : ι → K) (value : ι → A) (l : List ι) (k : K) : WithZero A :=
  ((l.filter (key · = k)).map fun x => (value x : WithZero A)).sum

variable {key key' : ι → K} {value value' : ι → A} {l l' : List ι} {x : ι} {k : K}

theorem combined_cons : combined key value (x :: l) k =
    (if key x = k then (value x : WithZero A) else 0) + combined key value l k := by
  by_cases h : key x = k <;> simp [combined, h]

theorem combined_perm (h : l.Perm l') : combined key value l k = combined key value l' k :=
  ((h.filter _).map _).sum_eq

theorem combined_congr (h : ∀ x ∈ l, key' x = key x ∧ value' x = value x) :
    combined key' value' l k = combined key value l k := by
  rw [combined, combined, filter_congr fun x hx => by rw [(h x hx).1]]
  exact congrArg sum (map_congr_left fun x hx => by rw [(h x (mem_of_mem_filter hx)).2])

/-- One value more for one of the elements. -/
theorem combined_add {v : A} (hnd : l.Nodup) (hx : x ∈ l) (hkey : ∀ y, key' y = key y)
    (hvalue : value' x = value x + v) (hother : ∀ y, y ≠ x → value' y = value y) :
    combined key' value' l k = (if key x = k then (v : WithZero A) else 0) + combined key value l k := by
  classical
  have hperm := perm_cons_erase hx
  have hrest : combined key' value' (l.erase x) k = combined key value (l.erase x) k :=
    combined_congr fun y hy => ⟨hkey y, hother y (hnd.mem_erase_iff.1 hy).1⟩
  rw [combined_perm hperm, combined_perm hperm, combined_cons, combined_cons, hkey, hvalue, hrest, ← add_assoc]
  split
  · rw [WithZero.coe_add, add_comm (v : WithZero A)]
  · rw [add_zero]

theorem combined_eq_zero : combined key value l k = 0 ↔ ∀ x ∈ l, key x ≠ k := by
  induction l with
  | nil => simp [combined]
  | cons x l ih =>
    rw [combined_cons, forall_mem_cons, ← ih]
    by_cases h : key x = k
    · cases combined key value l k <;> simp [h, ← WithZero.coe_add]
    · simp [h]

/-- The one element with a key has what is combined for it. -/
theorem combined_eq_of_injOn (value : ι → A) (hnd : l.Nodup) (hinj : ∀ x ∈ l, ∀ y ∈ l, key x = key y → x = y)
    (hx : x ∈ l) : combined key value l (key x) = value x := by
  have hsame (y : ι) (hy : y ∈ l) : key y = key x ↔ y = x := ⟨hinj y hy x hx, congrArg key⟩
  have hfilter : l.filter (key · = key x) = [x] := by
    classical
    rw [filter_congr fun y hy => decide_eq_decide.2 (hsame y hy), filter_eq x,
      count_eq_one_of_mem hnd hx, replicate_one]
  rw [combined, hfilter, map_singleton, sum_singleton]

end Combined

/-! ## Entries and tagged pointers -/

/-- The address of an entry; 0 is the null pointer. -/
abbrev Ptr := BitVec 64

structure Entry (K A : Type) where
  next : Ptr
  hashValue : BitVec 64
  key : K
  value : A

abbrev Memory (K A : Type) := Ptr → Entry K A

def tag (bloomMasks : ℕ → BitVec 16) (ptr previousPtr hash : BitVec 64) : BitVec 64 :=
  let previousTag := previousPtr.setWidth 16
  let currentTag := bloomMasks (hash >>> 53).toNat
  ptr <<< 16 ||| (currentTag ||| previousTag).setWidth 64

def matchesTag (bloomMasks : ℕ → BitVec 16) (ptr hash : BitVec 64) : Bool :=
  bloomMasks (hash >>> 53).toNat &&& ~~~(ptr.setWidth 16) == 0

def untag (ptr : BitVec 64) : Ptr := ptr >>> 16

def filterTagged (bloomMasks : ℕ → BitVec 16) (ptr hash : BitVec 64) : Ptr :=
  if matchesTag bloomMasks ptr hash then untag ptr else 0

section Tags

variable {bloomMasks : ℕ → BitVec 16} {ptr previousPtr hash hash' : BitVec 64}

/-- An address has 48 bits: nothing of it is shifted out. -/
theorem untag_tag (h : ptr.toNat < 2 ^ 48) : untag (tag bloomMasks ptr previousPtr hash) = ptr := by
  refine BitVec.eq_of_getLsbD_eq fun i hi => ?_
  have hhigh : 48 ≤ i → ptr.getLsbD i = false := fun hle =>
    Nat.testBit_lt_two_pow (Nat.lt_of_lt_of_le h (Nat.pow_le_pow_right (by omega) hle))
  simp only [untag, tag, BitVec.getLsbD_ushiftRight, BitVec.getLsbD_or, BitVec.getLsbD_shiftLeft]
  by_cases hi48 : 48 ≤ i
  · simp [hhigh hi48]
  · simp [show 16 + i < 64 by omega, show ¬ 16 + i < 16 by omega]

theorem matchesTag_iff : matchesTag bloomMasks ptr hash ↔
    ∀ i < 16, (bloomMasks (hash >>> 53).toNat).getLsbD i → ptr.getLsbD i := by
  rw [matchesTag, beq_iff_eq]
  constructor
  · intro h i hi hbit
    have hand := congrArg (·.getLsbD i) h
    simp only [BitVec.getLsbD_and, BitVec.getLsbD_not, BitVec.getLsbD_setWidth, hi, hbit] at hand
    simpa using hand
  · intro h
    refine BitVec.eq_of_getLsbD_eq fun i hi => ?_
    simp only [BitVec.getLsbD_and]
    cases hbit : (bloomMasks (hash >>> 53).toNat).getLsbD i with
    | false => simp
    | true => simp [h i hi hbit]

/-- The filter of the new head lets its own hash pass, and every hash the last
one did. -/
theorem matchesTag_tag (h : hash' = hash ∨ matchesTag bloomMasks previousPtr hash') :
    matchesTag bloomMasks (tag bloomMasks ptr previousPtr hash) hash' := by
  rw [matchesTag_iff]
  intro i hi hbit
  have hlow : (tag bloomMasks ptr previousPtr hash).getLsbD i =
      ((bloomMasks (hash >>> 53).toNat).getLsbD i || previousPtr.getLsbD i) := by
    simp [tag, hi, show i < 64 by omega]
  rw [hlow, Bool.or_eq_true]
  rcases h with rfl | h
  · exact .inl hbit
  · exact .inr (matchesTag_iff.1 h i hi hbit)

end Tags

/-! ## Fragments -/

section Model

variable {K A : Type}

/-- `numOutputs` is 64. -/
def partition (hash : BitVec 64) : ℕ := (hash &&& 63).toNat

/-- `hashtableSize` is 1024. -/
def slot (hash : BitVec 64) : ℕ := ((hash >>> 6) &&& 1023).toNat

structure Fragment where
  ht : ℕ → Ptr := fun _ => 0
  outputs : ℕ → List Ptr := fun _ => []

def Fragment.insert (f : Fragment) (hash : BitVec 64) (newEntry : Ptr) : Fragment where
  ht := update f.ht (slot hash) newEntry
  outputs := update f.outputs (partition hash) (f.outputs (partition hash) ++ [newEntry])

/-- A row that a worker aggregates. -/
structure Input (K A : Type) where
  worker : ℕ
  key : K
  value : A

/-- The fragments of the workers, and how many entries were made. -/
structure State (K A : Type) where
  mem : Memory K A
  fragments : ℕ → Fragment
  entries : ℕ

def State.init (mem : Memory K A) : State K A := ⟨mem, fun _ => {}, 0⟩

/-- The entries of a partition, fragment by fragment. -/
def State.input (st : State K A) (workers : List ℕ) (id : ℕ) : List Ptr :=
  workers.flatMap fun w => (st.fragments w).outputs id

variable [DecidableEq K] [AddCommSemigroup A] (hash : K → BitVec 64) (alloc : ℕ → Ptr)

/-- `combine` into an entry. -/
def Memory.combine (mem : Memory K A) (p : Ptr) (value : A) : Memory K A :=
  update mem p { mem p with value := (mem p).value + value }

/-- A new entry, the `n`-th at `alloc n`. -/
def State.insert (st : State K A) (row : Input K A) : State K A :=
  let newEntry := alloc st.entries
  { mem := update st.mem newEntry ⟨0, hash row.key, row.key, row.value⟩
    fragments := update st.fragments row.worker
      ((st.fragments row.worker).insert (hash row.key) newEntry)
    entries := st.entries + 1 }

/-- The entry in the slot is taken if it has the key. -/
def State.consume (st : State K A) (row : Input K A) : State K A :=
  let hashed := hash row.key
  let currEntry := (st.fragments row.worker).ht (slot hashed)
  if currEntry ≠ 0 ∧ (st.mem currEntry).hashValue = hashed ∧ (st.mem currEntry).key = row.key then
    { st with mem := st.mem.combine currEntry row.value }
  else st.insert hash alloc row

/-- The rows of all workers, in the order in which they come. -/
def State.aggregate (st : State K A) (rows : List (Input K A)) : State K A :=
  rows.foldl (fun st row => st.consume hash alloc row) st

/-! ## Merging -/

def position (htMask : ℕ) (hash : BitVec 64) : ℕ := (hash >>> 6).toNat &&& htMask

def nextPow2 (v : BitVec 64) : BitVec 64 :=
  let v := v - 1
  let v := v ||| v >>> 1
  let v := v ||| v >>> 2
  let v := v ||| v >>> 4
  let v := v ||| v >>> 8
  let v := v ||| v >>> 16
  let v := v ||| v >>> 32
  v + 1

def htSize (totalValues : ℕ) : ℕ := max (nextPow2 (BitVec.ofNat 64 (totalValues * 5 / 4))).toNat 1

/-- The walk down a chain to the entry with a key; `none` is not enough fuel. -/
def findEntry (mem : Memory K A) (hashValue : BitVec 64) (key : K) : ℕ → Ptr → Option (Option Ptr)
  | 0, candidate => if candidate = 0 then some none else none
  | fuel + 1, candidate =>
    if candidate = 0 then some none
    else if (mem candidate).hashValue = hashValue ∧ (mem candidate).key = key then some (some candidate)
    else findEntry mem hashValue key fuel (mem candidate).next

/-- The merge so far: the tables of the partitions, with the mask of each one that
is finished, and their entries, the last one first. -/
structure Merged (K A : Type) where
  mem : Memory K A
  ht : ℕ → ℕ → BitVec 64
  hashMask : ℕ → Option ℕ
  buffer : List Ptr

variable (bloomMasks : ℕ → BitVec 16) (fuel : ℕ)

/-- An entry of a partition. -/
def Merged.step (id htMask : ℕ) (res : Merged K A) (curr : Ptr) : Option (Merged K A) :=
  let e := res.mem curr
  let pos := position htMask e.hashValue
  let head := res.ht id pos
  match findEntry res.mem e.hashValue e.key fuel (untag head) with
  | none => none
  | some (some candidate) => some { res with mem := res.mem.combine candidate e.value }
  | some none =>
    some
      { res with
        mem := update res.mem curr { e with next := untag head }
        ht := update res.ht id (update (res.ht id) pos (tag bloomMasks curr head e.hashValue))
        buffer := curr :: res.buffer }

def State.htMask (st : State K A) (workers : List ℕ) (id : ℕ) : ℕ := htSize (st.input workers id).length - 1

def handleMerge (st : State K A) (workers : List ℕ) (res : Merged K A) (id : ℕ) : Option (Merged K A) := do
  let htMask := st.htMask workers id
  let res ← (st.input workers id).foldlM (Merged.step bloomMasks fuel id htMask) res
  return { res with hashMask := update res.hashMask id (some htMask) }

/-- `merge`, with the partitions in the order in which the tasks take them. What
the tasks touch is apart. -/
def State.merge (st : State K A) (workers order : List ℕ) : Option (Merged K A) :=
  order.foldlM (handleMerge bloomMasks fuel st workers) ⟨st.mem, fun _ _ => 0, fun _ => none, []⟩

def Merged.lookup (res : Merged K A) (hash : BitVec 64) : Ptr :=
  match res.hashMask (partition hash) with
  | none => 0
  | some hashMask => filterTagged bloomMasks (res.ht (partition hash) (position hashMask hash)) hash

end Model

/-! ## What the fragments hold -/

section Fragments

variable {K A : Type} {hash : K → BitVec 64} {alloc : ℕ → Ptr} {n : ℕ}

/-- Where the entries are: different addresses of 48 bits. -/
structure Places (alloc : ℕ → Ptr) (n : ℕ) : Prop where
  ne_zero : ∀ i < n, alloc i ≠ 0
  lt : ∀ i < n, (alloc i).toNat < 2 ^ 48
  inj : ∀ i < n, ∀ j < n, alloc i = alloc j → i = j

theorem flatMap_perm {ι α : Type} {g g' : ι → List α} {i : ι} {x : α} {l : List ι} (hnd : l.Nodup) (hi : i ∈ l)
    (hself : (g' i).Perm (x :: g i)) (hother : ∀ j, j ≠ i → g' j = g j) : (l.flatMap g').Perm (x :: l.flatMap g) := by
  classical
  have hperm := perm_cons_erase hi
  refine (hperm.flatMap_right g').trans (.trans ?_ ((hperm.flatMap_right g).symm.cons x))
  rw [flatMap_cons, flatMap_cons, flatMap_congr fun j hj => hother j (hnd.mem_erase_iff.1 hj).1]
  exact hself.append_right _

/-- The entries of all partitions. -/
def State.all (st : State K A) (workers : List ℕ) : List Ptr := (List.range 64).flatMap (st.input workers)

theorem partition_lt (h : BitVec 64) : partition h < 64 := by
  exact Nat.lt_of_le_of_lt Nat.and_le_right (by decide)

section Insert

variable {workers : List ℕ} {row : Input K A} {st : State K A} {p : Ptr}

theorem mem_insert_self : (st.insert hash alloc row).mem (alloc st.entries) = ⟨0, hash row.key, row.key, row.value⟩ :=
  update_self ..

theorem mem_insert_of_ne (hp : p ≠ alloc st.entries) : (st.insert hash alloc row).mem p = st.mem p :=
  update_of_ne hp ..

theorem outputs_insert (w i : ℕ) : ((st.insert hash alloc row).fragments w).outputs i =
    if w = row.worker ∧ i = partition (hash row.key) then (st.fragments w).outputs i ++ [alloc st.entries]
    else (st.fragments w).outputs i := by
  by_cases hw : w = row.worker <;> by_cases hi : i = partition (hash row.key) <;>
    simp [State.insert, Fragment.insert, hw, hi]

theorem ht_insert (w s : ℕ) : ((st.insert hash alloc row).fragments w).ht s =
    if w = row.worker ∧ s = slot (hash row.key) then alloc st.entries else (st.fragments w).ht s := by
  by_cases hw : w = row.worker <;> by_cases hs : s = slot (hash row.key) <;>
    simp [State.insert, Fragment.insert, hw, hs]

theorem all_insert (hnd : workers.Nodup) (hw : row.worker ∈ workers) :
    ((st.insert hash alloc row).all workers).Perm (alloc st.entries :: st.all workers) := by
  refine flatMap_perm nodup_range (mem_range.2 (partition_lt (hash row.key))) ?_ fun i hi => ?_
  · refine flatMap_perm hnd hw ?_ fun w hw => ?_
    · rw [outputs_insert, if_pos ⟨rfl, rfl⟩]
      exact perm_append_singleton ..
    · rw [outputs_insert, if_neg fun h => hw h.1]
  · exact flatMap_congr fun w _ => by rw [outputs_insert, if_neg fun h => hi h.2]

end Insert

variable [AddCommSemigroup A]

section Combine

variable (mem : Memory K A) (p q : Ptr) (v : A)

theorem Memory.combine_of_ne (h : q ≠ p) : mem.combine p v q = mem q := update_of_ne h ..

@[simp] theorem Memory.combine_key : (mem.combine p v q).key = (mem q).key := by
  by_cases h : q = p <;> simp [Memory.combine, h]

@[simp] theorem Memory.combine_hashValue : (mem.combine p v q).hashValue = (mem q).hashValue := by
  by_cases h : q = p <;> simp [Memory.combine, h]

@[simp] theorem Memory.combine_next : (mem.combine p v q).next = (mem q).next := by
  by_cases h : q = p <;> simp [Memory.combine, h]

end Combine

variable [DecidableEq K] {mem : Memory K A} {l : List Ptr} {k : K}

def Memory.combined (mem : Memory K A) : List Ptr → K → WithZero A :=
  PreAggregation.combined (fun p => (mem p).key) fun p => (mem p).value

theorem Memory.combined_cons {p : Ptr} :
    mem.combined (p :: l) k = (if (mem p).key = k then ((mem p).value : WithZero A) else 0) + mem.combined l k :=
  PreAggregation.combined_cons

theorem Memory.combined_congr {mem' : Memory K A}
    (h : ∀ p ∈ l, (mem' p).key = (mem p).key ∧ (mem' p).value = (mem p).value) : mem'.combined l k = mem.combined l k :=
  PreAggregation.combined_congr h

theorem Memory.combined_combine {p : Ptr} {v : A} (hnd : l.Nodup) (hp : p ∈ l) :
    (mem.combine p v).combined l k = (if (mem p).key = k then (v : WithZero A) else 0) + mem.combined l k := by
  refine combined_add hnd hp (fun q => mem.combine_key p q v) ?_ fun q hq => by rw [mem.combine_of_ne p q v hq]
  rw [Memory.combine, update_self]

/-- The state of the fragments after some rows. -/
structure Holds (hash : K → BitVec 64) (alloc : ℕ → Ptr) (workers : List ℕ) (rows : List (Input K A))
    (st : State K A) : Prop where
  entries_le : st.entries ≤ rows.length
  placed : ∀ p ∈ st.all workers, ∃ j < st.entries, p = alloc j
  nodup : (st.all workers).Nodup
  hashValue : ∀ p ∈ st.all workers, (st.mem p).hashValue = hash (st.mem p).key
  inPartition : ∀ i < 64, ∀ p ∈ st.input workers i, partition (st.mem p).hashValue = i
  slots : ∀ w s, (st.fragments w).ht s ≠ 0 → (st.fragments w).ht s ∈ st.all workers
  combined : ∀ k, st.mem.combined (st.all workers) k = combined Input.key Input.value rows k

variable {workers : List ℕ} {rows : List (Input K A)} {row : Input K A} {st : State K A} {p : Ptr}

theorem Holds.init (mem : Memory K A) : Holds hash alloc workers [] (State.init mem) := by
  have hinput i : (State.init mem).input workers i = [] := flatMap_eq_nil_iff.2 fun _ _ => rfl
  have hall : (State.init mem).all workers = [] := flatMap_eq_nil_iff.2 fun i _ => hinput i
  exact
    { entries_le := Nat.le_refl 0
      placed := fun p hp => absurd (hall ▸ hp) not_mem_nil
      nodup := hall ▸ nodup_nil
      hashValue := fun p hp => absurd (hall ▸ hp) not_mem_nil
      inPartition := fun i _ p hp => absurd (hinput i ▸ hp) not_mem_nil
      slots := fun _ _ h => absurd rfl h
      combined := fun k => by rw [hall]; rfl }

/-- A row whose key is in its slot. -/
theorem Holds.combine (h : Holds hash alloc workers rows st) (hp : p ∈ st.all workers)
    (hkey : (st.mem p).key = row.key) :
    Holds hash alloc workers (row :: rows) { st with mem := st.mem.combine p row.value } where
  entries_le := Nat.le_succ_of_le h.entries_le
  placed := h.placed
  nodup := h.nodup
  hashValue q hq := by
    rw [Memory.combine_hashValue, Memory.combine_key]
    exact h.hashValue q hq
  inPartition i hi q hq := by
    rw [Memory.combine_hashValue]
    exact h.inPartition i hi q hq
  slots := h.slots
  combined k := by
    rw [combined_cons, ← h.combined k, ← hkey]
    exact Memory.combined_combine h.nodup hp

section
variable (h : Holds hash alloc workers rows st) (hplaces : Places alloc n) (hn : rows.length < n)
include h hplaces hn

/-- The new address is in no buffer. -/
theorem Holds.fresh : alloc st.entries ∉ st.all workers := by
  intro hmem
  obtain ⟨j, hj, hpj⟩ := h.placed _ hmem
  have hentries := h.entries_le
  have := hplaces.inj _ (by omega) _ (by omega) hpj
  omega

/-- A row for which a new entry is made. -/
theorem Holds.insert (hnd : workers.Nodup) (hw : row.worker ∈ workers) :
    Holds hash alloc workers (row :: rows) (st.insert hash alloc row) := by
  have hfresh := h.fresh hplaces hn
  have hall : ((st.insert hash alloc row).all workers).Perm (alloc st.entries :: st.all workers) := all_insert hnd hw
  have hmem {p : Ptr} hp :
      p = alloc st.entries ∨ p ≠ alloc st.entries ∧ p ∈ st.all workers :=
    (mem_cons.1 (hall.subset hp)).imp id fun hp => ⟨ne_of_mem_of_not_mem hp hfresh, hp⟩
  exact
    { entries_le := Nat.succ_le_succ h.entries_le
      placed := fun p hp => by
        rcases hmem hp with rfl | ⟨-, hp⟩
        · exact ⟨st.entries, Nat.lt_succ_self _, rfl⟩
        · obtain ⟨j, hj, hp⟩ := h.placed p hp
          exact ⟨j, Nat.lt_succ_of_lt hj, hp⟩
      nodup := hall.nodup_iff.2 (nodup_cons.2 ⟨hfresh, h.nodup⟩)
      hashValue := fun p hp => by
        rcases hmem hp with rfl | ⟨hne, hp⟩
        · rw [mem_insert_self]
        · rw [mem_insert_of_ne hne, h.hashValue p hp]
      inPartition := fun i hi p hp => by
        obtain ⟨w, hw, hp⟩ := mem_flatMap.1 hp
        have hold : p ∈ (st.fragments w).outputs i →
            partition ((st.insert hash alloc row).mem p).hashValue = i := fun hp => by
          have hin : p ∈ st.input workers i := mem_flatMap.2 ⟨w, hw, hp⟩
          have hpall : p ∈ st.all workers := mem_flatMap.2 ⟨i, mem_range.2 hi, hin⟩
          rw [mem_insert_of_ne (ne_of_mem_of_not_mem hpall hfresh), h.inPartition i hi p hin]
        rw [outputs_insert] at hp
        split at hp
        · next hnew =>
          rcases mem_append.1 hp with hp | hp
          · exact hold hp
          · rw [mem_singleton.1 hp, mem_insert_self, hnew.2]
        · exact hold hp
      slots := fun w s hne => by
        rw [hall.mem_iff, mem_cons]
        rw [ht_insert] at hne ⊢
        split at hne
        · next hnew => exact .inl (if_pos hnew)
        · next hold =>
          rw [if_neg hold]
          exact .inr (h.slots w s hne)
      combined := fun k => by
        have hrest : (st.insert hash alloc row).mem.combined (st.all workers) k = st.mem.combined (st.all workers) k :=
          Memory.combined_congr fun p hp => by
            rw [mem_insert_of_ne (ne_of_mem_of_not_mem hp hfresh)]
            exact ⟨rfl, rfl⟩
        rw [PreAggregation.combined_cons, ← h.combined k, ← hrest]
        refine (combined_perm hall).trans (Memory.combined_cons.trans ?_)
        rw [mem_insert_self] }

theorem Holds.consume (hnd : workers.Nodup) (hw : row.worker ∈ workers) :
    Holds hash alloc workers (row :: rows) (st.consume hash alloc row) := by
  unfold State.consume
  dsimp only
  split
  · next hhit => exact h.combine (h.slots _ _ hhit.1) hhit.2.2
  · exact h.insert hplaces hn hnd hw

end

/-- **The fragments hold the rows**, whoever aggregated them and in whatever
order. -/
theorem Holds.aggregate {done : List (Input K A)} (h : Holds hash alloc workers done st) (hplaces : Places alloc n)
    (hnd : workers.Nodup) (hn : rows.length + done.length ≤ n) (hw : ∀ row ∈ rows, row.worker ∈ workers) :
    Holds hash alloc workers (rows.reverse ++ done) (st.aggregate hash alloc rows) := by
  induction rows generalizing done st with
  | nil => exact h
  | cons row rows ih =>
    obtain ⟨hrow, hrows⟩ := forall_mem_cons.1 hw
    rw [length_cons] at hn
    rw [reverse_cons, append_assoc, singleton_append]
    exact ih (h.consume hplaces (by omega) hnd hrow) (by rw [length_cons]; omega) hrows

end Fragments

/-! ## Chains -/

section Chains

variable {K A : Type} {mem mem' : Memory K A} {bloomMasks : ℕ → BitVec 16} {masks : ℕ → ℕ} {fuel : ℕ}
  {ht : ℕ → ℕ → BitVec 64} {buffer : List Ptr} {p : Ptr}

def IsChain (mem : Memory K A) : Ptr → List Ptr → Prop
  | p, [] => p = 0
  | p, q :: l => p = q ∧ q ≠ 0 ∧ IsChain mem (mem q).next l

theorem IsChain.congr : ∀ {l : List Ptr} {p : Ptr}, IsChain mem p l → (∀ q ∈ l, (mem' q).next = (mem q).next) →
    IsChain mem' p l
  | [], _, h, _ => h
  | q :: _, _, ⟨hp, hq, h⟩, hnext =>
    ⟨hp, hq, (hnext q (mem_cons_self ..)).symm ▸ h.congr fun r hr => hnext r (mem_cons_of_mem _ hr)⟩

theorem IsChain.findEntry [DecidableEq K] {h : BitVec 64} {k : K} : ∀ {l : List Ptr} {fuel : ℕ} {p : Ptr},
    IsChain mem p l → l.length ≤ fuel →
    findEntry mem h k fuel p = some (l.find? fun q => (mem q).hashValue = h ∧ (mem q).key = k)
  | [], 0, _, hp, _ | [], _ + 1, _, hp, _ => if_pos hp
  | q :: l, fuel + 1, _, ⟨rfl, hq, hl⟩, hf => by
    rw [PreAggregation.findEntry, if_neg hq, hl.findEntry (Nat.le_of_succ_le_succ hf)]
    split
    · next hfound => simp [hfound]
    · next hother => rw [find?_cons_of_neg (by simpa using hother)]

/-- The partition of a hash and its place in the partition's table. -/
def bucket (masks : ℕ → ℕ) (hash : BitVec 64) : ℕ × ℕ := (partition hash, position (masks (partition hash)) hash)

/-- The buckets of the tables are the chains of their entries, and every entry
passes the filter of its bucket. -/
structure Chained (bloomMasks : ℕ → BitVec 16) (masks : ℕ → ℕ) (mem : Memory K A) (ht : ℕ → ℕ → BitVec 64)
    (buffer : List Ptr) : Prop where
  chain : ∀ id pos, IsChain mem (untag (ht id pos)) (buffer.filter fun p => bucket masks (mem p).hashValue = (id, pos))
  tags : ∀ p ∈ buffer, matchesTag bloomMasks (ht (bucket masks (mem p).hashValue).1 (bucket masks (mem p).hashValue).2)
    (mem p).hashValue = true

section

variable (h : Chained bloomMasks masks mem ht buffer)
include h

theorem Chained.congr (hnext : ∀ p ∈ buffer, (mem' p).next = (mem p).next)
    (hhash : ∀ p ∈ buffer, (mem' p).hashValue = (mem p).hashValue) : Chained bloomMasks masks mem' ht buffer where
  chain id pos := by
    rw [filter_congr fun p hp => by rw [hhash p hp]]
    exact (h.chain id pos).congr fun p hp => hnext p (mem_of_mem_filter hp)
  tags p hp := by
    rw [hhash p hp]
    exact h.tags p hp

theorem Chained.findEntry [DecidableEq K] (hf : buffer.length ≤ fuel) (hash : BitVec 64) (k : K) :
    findEntry mem hash k fuel (untag (ht (bucket masks hash).1 (bucket masks hash).2)) =
      some (buffer.find? fun q => (mem q).hashValue = hash ∧ (mem q).key = k) := by
  rw [(h.chain _ _).findEntry (Nat.le_trans (length_filter_le ..) hf), find?_filter]
  congr 2
  funext q
  by_cases hq : (mem q).hashValue = hash <;> simp [hq]

/-- A new head of a chain. -/
theorem Chained.push {id pos : ℕ} (hp : p ∉ buffer) (hne : p ≠ 0)
    (hlt : p.toNat < 2 ^ 48) (hbucket : bucket masks (mem p).hashValue = (id, pos)) :
    Chained bloomMasks masks (update mem p { mem p with next := untag (ht id pos) })
      (update ht id (update (ht id) pos (tag bloomMasks p (ht id pos) (mem p).hashValue))) (p :: buffer) := by
  set mem' := update mem p { mem p with next := untag (ht id pos) }
  set ht' := update ht id (update (ht id) pos (tag bloomMasks p (ht id pos) (mem p).hashValue))
  have hself : mem' p = { mem p with next := untag (ht id pos) } := update_self ..
  have hold (q : Ptr) (hq : q ∈ buffer) : mem' q = mem q := update_of_ne (ne_of_mem_of_not_mem hq hp) ..
  have hhead : ht' id pos = tag bloomMasks p (ht id pos) (mem p).hashValue := by simp [ht']
  have hht b (hb : (id, pos) ≠ b) : ht' b.1 b.2 = ht b.1 b.2 := by
    by_cases hi : b.1 = id
    · have hpos : b.2 ≠ pos := fun hpos => hb (Prod.ext hi.symm hpos.symm)
      simp [ht', hi, hpos]
    · simp [ht', hi]
  have hfilter b : buffer.filter (fun q => bucket masks (mem' q).hashValue = b) =
      buffer.filter fun q => bucket masks (mem q).hashValue = b :=
    filter_congr fun q hq => by rw [hold q hq]
  have hchain b :
      IsChain mem' (untag (ht b.1 b.2)) (buffer.filter fun q => bucket masks (mem q).hashValue = b) :=
    (h.chain b.1 b.2).congr fun q hq => by rw [hold q (mem_of_mem_filter hq)]
  refine ⟨fun i j => ?_, fun q hq => ?_⟩
  · rw [filter_cons, hfilter, hself, hbucket]
    by_cases hij : (id, pos) = (i, j)
    · cases hij
      rw [if_pos (decide_eq_true rfl), hhead, untag_tag hlt]
      refine ⟨rfl, hne, ?_⟩
      rw [hself]
      exact hchain (id, pos)
    · rw [if_neg (by simpa using hij), hht (i, j) hij]
      exact hchain (i, j)
  · rcases mem_cons.1 hq with rfl | hq
    · rw [hself, hbucket, hhead]
      exact matchesTag_tag (.inl rfl)
    · rw [hold q hq]
      have htag := h.tags q hq
      by_cases hb : (id, pos) = bucket masks (mem q).hashValue
      · rw [← hb] at htag ⊢
        rw [hhead]
        exact matchesTag_tag (.inr htag)
      · rw [hht _ hb]
        exact htag

end

end Chains

/-! ## Merging entries -/

section Merging

variable {K A : Type} [DecidableEq K] [AddCommSemigroup A] {hash : K → BitVec 64} {bloomMasks : ℕ → BitVec 16}
  {masks : ℕ → ℕ} {fuel id : ℕ} {mem : Memory K A} {m : Merged K A} {entries : List Ptr} {p q : Ptr}

/-- The merge after some entries, the last one first. -/
structure Merges (bloomMasks : ℕ → BitVec 16) (masks : ℕ → ℕ) (mem : Memory K A) (entries : List Ptr)
    (m : Merged K A) : Prop where
  chained : Chained bloomMasks masks m.mem m.ht m.buffer
  sublist : m.buffer.Sublist entries
  distinct : ∀ p ∈ m.buffer, ∀ q ∈ m.buffer, (m.mem p).key = (m.mem q).key → p = q
  keys : ∀ p, (m.mem p).key = (mem p).key ∧ (m.mem p).hashValue = (mem p).hashValue
  frame : ∀ p ∉ entries, m.mem p = mem p
  combined : ∀ k, m.mem.combined m.buffer k = mem.combined entries k

/-- An entry that can be merged. -/
structure Mergeable (hash : K → BitVec 64) (mem : Memory K A) (p : Ptr) : Prop where
  ne_zero : p ≠ 0
  lt : p.toNat < 2 ^ 48
  hashValue : (mem p).hashValue = hash (mem p).key

section
variable (h : Merges bloomMasks masks mem entries m)
include h

/-- An entry whose key is in the table. -/
theorem Merges.combine (hnd : entries.Nodup) (hp : p ∉ entries)
    (hq : q ∈ m.buffer) (hkey : (m.mem q).key = (m.mem p).key) :
    Merges bloomMasks masks mem (p :: entries) { m with mem := m.mem.combine q (m.mem p).value } where
  chained := h.chained.congr (fun r _ => m.mem.combine_next q r _) fun r _ => m.mem.combine_hashValue q r _
  sublist := h.sublist.cons p
  distinct r hr s hs := by
    rw [Memory.combine_key, Memory.combine_key]
    exact h.distinct r hr s hs
  keys r := by
    rw [Memory.combine_key, Memory.combine_hashValue]
    exact h.keys r
  frame r hr := by
    obtain ⟨-, hr⟩ := not_or.1 (mt mem_cons.2 hr)
    exact (m.mem.combine_of_ne q r _ fun hrq => hr (hrq ▸ h.sublist.subset hq)).trans (h.frame r hr)
  combined k := by
    refine (Memory.combined_combine (h.sublist.nodup hnd) hq).trans ?_
    rw [h.combined k, hkey, h.frame p hp, Memory.combined_cons]

/-- An entry whose key is not in the table yet. -/
theorem Merges.push {pos : ℕ} (hp : p ∉ entries)
    (hmergeable : Mergeable hash mem p) (hbucket : bucket masks (m.mem p).hashValue = (id, pos))
    (hnew : ∀ q ∈ m.buffer, (m.mem q).key ≠ (m.mem p).key) : Merges bloomMasks masks mem (p :: entries) { m with
        mem := update m.mem p { m.mem p with next := untag (m.ht id pos) }
        ht := update m.ht id (update (m.ht id) pos (tag bloomMasks p (m.ht id pos) (m.mem p).hashValue))
        buffer := p :: m.buffer } := by
  set mem' : Memory K A := update m.mem p { m.mem p with next := untag (m.ht id pos) }
  have hbuffer : p ∉ m.buffer := fun hmem => hp (h.sublist.subset hmem)
  have hsame q : (mem' q).key = (m.mem q).key ∧ (mem' q).hashValue = (m.mem q).hashValue ∧
      (mem' q).value = (m.mem q).value := by
    by_cases hq : q = p <;> simp [mem', hq]
  exact
    { chained := h.chained.push hbuffer hmergeable.ne_zero hmergeable.lt hbucket
      sublist := h.sublist.cons_cons p
      distinct := fun q hq r hr heq => by
        rw [(hsame q).1, (hsame r).1] at heq
        rcases mem_cons.1 hq with hqp | hq
        · rcases mem_cons.1 hr with hrp | hr
          · rw [hqp, hrp]
          · exact absurd (hqp ▸ heq.symm) (hnew r hr)
        · rcases mem_cons.1 hr with hrp | hr
          · exact absurd (hrp ▸ heq) (hnew q hq)
          · exact h.distinct q hq r hr heq
      keys := fun q => by
        rw [(hsame q).1, (hsame q).2.1]
        exact h.keys q
      frame := fun q hq => by
        obtain ⟨hne, hq⟩ := not_or.1 (mt mem_cons.2 hq)
        exact (update_of_ne hne ..).trans (h.frame q hq)
      combined := fun k => by
        have hvalues : mem'.combined (p :: m.buffer) k = m.mem.combined (p :: m.buffer) k :=
          Memory.combined_congr fun q _ => ⟨(hsame q).1, (hsame q).2.2⟩
        rw [hvalues, Memory.combined_cons, Memory.combined_cons, h.frame p hp, h.combined k] }

/-- One entry. -/
theorem Merges.step (hnd : entries.Nodup) (hp : p ∉ entries)
    (hall : ∀ q ∈ p :: entries, Mergeable hash mem q) (hid : partition (mem p).hashValue = id)
    (hf : entries.length ≤ fuel) :
    ∃ m', m.step bloomMasks fuel id (masks id) p = some m' ∧ Merges bloomMasks masks mem (p :: entries) m' ∧
      m'.hashMask = m.hashMask := by
  have hhash q (hq : q ∈ p :: entries) : (m.mem q).hashValue = hash (m.mem q).key := by
    rw [(h.keys q).1, (h.keys q).2, (hall q hq).hashValue]
  have hbucket : bucket masks (m.mem p).hashValue = (id, position (masks id) (m.mem p).hashValue) := by
    rw [bucket, (h.keys p).2, hid]
  have hfind := h.chained.findEntry (Nat.le_trans h.sublist.length_le hf) (m.mem p).hashValue (m.mem p).key
  rw [hbucket] at hfind
  unfold Merged.step
  dsimp only at hfind ⊢
  rw [hfind]
  cases hq : m.buffer.find? fun q =>
      (m.mem q).hashValue = (m.mem p).hashValue ∧ (m.mem q).key = (m.mem p).key with
  | some q =>
    have hmatch := find?_some hq
    simp only [decide_eq_true_eq] at hmatch
    exact ⟨_, rfl, h.combine hnd hp (mem_of_find?_eq_some hq) hmatch.2, rfl⟩
  | none =>
    refine ⟨_, rfl, h.push hp (hall p (mem_cons_self ..)) hbucket fun q hmem hkey => ?_, rfl⟩
    have hno := find?_eq_none.1 hq q hmem
    simp only [decide_eq_true_eq, not_and] at hno
    refine hno ?_ hkey
    rw [hhash q (mem_cons_of_mem _ (h.sublist.subset hmem)), hhash p (mem_cons_self ..), hkey]

/-- The entries of a partition. -/
theorem Merges.run {input : List Ptr}
    (hnd : (input.reverse ++ entries).Nodup) (hall : ∀ p ∈ input.reverse ++ entries, Mergeable hash mem p)
    (hid : ∀ p ∈ input, partition (mem p).hashValue = id) (hf : (input.reverse ++ entries).length ≤ fuel) :
    ∃ m', input.foldlM (Merged.step bloomMasks fuel id (masks id)) m = some m' ∧
      Merges bloomMasks masks mem (input.reverse ++ entries) m' ∧ m'.hashMask = m.hashMask := by
  induction input generalizing entries m with
  | nil => exact ⟨m, rfl, h, rfl⟩
  | cons p input ih =>
    rw [reverse_cons, append_assoc] at hnd hall hf ⊢
    obtain ⟨hidp, hid⟩ := forall_mem_cons.1 hid
    have hsub : (p :: entries).Sublist (input.reverse ++ p :: entries) := sublist_append_right ..
    obtain ⟨hp, hentries⟩ := nodup_cons.1 (hsub.nodup hnd)
    have hlen : entries.length ≤ fuel := Nat.le_of_succ_le (Nat.le_trans hsub.length_le hf)
    obtain ⟨m1, hstep, h1, hmask1⟩ := h.step hentries hp (fun q hq => hall q (hsub.subset hq)) hidp hlen
    obtain ⟨m', hrun, h', hmask⟩ := ih h1 hnd hall hid hf
    refine ⟨m', ?_, h', hmask.trans hmask1⟩
    rw [foldlM_cons, hstep]
    exact hrun

end

variable {st : State K A} {workers : List ℕ}

/-- **The partitions**, in any order. -/
theorem Merges.order {order : List ℕ} (h : Merges bloomMasks (st.htMask workers) mem entries m)
    (hnd : ((order.flatMap (st.input workers)).reverse ++ entries).Nodup)
    (hall : ∀ p ∈ (order.flatMap (st.input workers)).reverse ++ entries, Mergeable hash mem p)
    (hid : ∀ i ∈ order, ∀ p ∈ st.input workers i, partition (mem p).hashValue = i)
    (hf : ((order.flatMap (st.input workers)).reverse ++ entries).length ≤ fuel) :
    ∃ m', order.foldlM (handleMerge bloomMasks fuel st workers) m = some m' ∧
      Merges bloomMasks (st.htMask workers) mem ((order.flatMap (st.input workers)).reverse ++ entries) m' ∧
      ∀ i, i ∈ order ∨ m.hashMask i = some (st.htMask workers i) → m'.hashMask i = some (st.htMask workers i) := by
  induction order generalizing entries m with
  | nil => exact ⟨m, rfl, h, fun i hi => hi.resolve_left not_mem_nil⟩
  | cons id order ih =>
    rw [flatMap_cons, reverse_append, append_assoc] at hnd hall hf ⊢
    obtain ⟨hidp, hid⟩ := forall_mem_cons.1 hid
    have hsub := sublist_append_right (order.flatMap (st.input workers)).reverse
      ((st.input workers id).reverse ++ entries)
    obtain ⟨m1, hrun1, h1, hmask1⟩ := h.run (hsub.nodup hnd) (fun p hp => hall p (hsub.subset hp)) hidp
      (Nat.le_trans hsub.length_le hf)
    set m2 : Merged K A := { m1 with hashMask := update m1.hashMask id (some (st.htMask workers id)) } with hm2
    have hstep : handleMerge bloomMasks fuel st workers m id = some m2 := by
      rw [handleMerge, hrun1]
      rfl
    have h2 : Merges bloomMasks (st.htMask workers) mem
        ((st.input workers id).reverse ++ entries) m2 :=
      ⟨h1.chained, h1.sublist, h1.distinct, h1.keys, h1.frame, h1.combined⟩
    obtain ⟨m', hrun, h', hmask⟩ := ih h2 hnd hall hid hf
    refine ⟨m', ?_, h', fun i hi => hmask i ?_⟩
    · rw [foldlM_cons, hstep]
      exact hrun
    · by_cases hii : i = id
      · exact .inr (by simp [hm2, hii])
      · have hsame : m2.hashMask i = m.hashMask i := by rw [← hmask1]; exact update_of_ne hii ..
        rw [hsame]
        exact hi.imp_left fun hi => (mem_cons.1 hi).resolve_left hii

/-- A lookup in the finished table. -/
theorem Merges.findEntry_lookup (h : Merges bloomMasks masks mem entries m) (hp : p ∈ m.buffer)
    (hall : ∀ q ∈ entries, Mergeable hash mem q) (hmask : ∀ i < 64, m.hashMask i = some (masks i))
    (hf : entries.length ≤ fuel) : findEntry m.mem (hash (m.mem p).key) (m.mem p).key fuel
      (m.lookup bloomMasks (hash (m.mem p).key)) = some (some p) := by
  have hhash : (m.mem p).hashValue = hash (m.mem p).key := by
    rw [(h.keys p).1, (h.keys p).2, (hall p (h.sublist.subset hp)).hashValue]
  have hlookup : m.lookup bloomMasks (m.mem p).hashValue =
      untag (m.ht (bucket masks (m.mem p).hashValue).1 (bucket masks (m.mem p).hashValue).2) := by
    rw [Merged.lookup, hmask _ (partition_lt _)]
    exact if_pos (h.chained.tags p hp)
  rw [← hhash, hlookup, h.chained.findEntry (Nat.le_trans h.sublist.length_le hf)]
  cases hfind : m.buffer.find? fun q =>
      (m.mem q).hashValue = (m.mem p).hashValue ∧ (m.mem q).key = (m.mem p).key with
  | none => exact absurd (find?_eq_none.1 hfind p hp) (by simp)
  | some q =>
    have hq := find?_some hfind
    simp only [decide_eq_true_eq] at hq
    rw [h.distinct q (mem_of_find?_eq_some hfind) p hp hq.2]

variable {alloc : ℕ → Ptr} {order : List ℕ} {rows : List (Input K A)}

section
variable (h : Holds hash alloc workers rows st)
include h

theorem Holds.mergeable (hplaces : Places alloc rows.length)
    (hp : p ∈ st.all workers) : Mergeable hash st.mem p := by
  obtain ⟨j, hj, rfl⟩ := h.placed p hp
  have hj := Nat.lt_of_lt_of_le hj h.entries_le
  exact ⟨hplaces.ne_zero j hj, hplaces.lt j hj, h.hashValue _ hp⟩

theorem Holds.length_all_le : (st.all workers).length ≤ rows.length := by
  have hsub : st.all workers ⊆ (List.range st.entries).map alloc := fun p hp => by
    obtain ⟨j, hj, rfl⟩ := h.placed p hp
    exact mem_map_of_mem (mem_range.2 hj)
  have hle := (subperm_of_subset h.nodup hsub).length_le
  rw [length_map, length_range] at hle
  exact Nat.le_trans hle h.entries_le

/-- The merge of fragments that hold some rows. -/
theorem Holds.merge (hplaces : Places alloc rows.length)
    (horder : order.Perm (List.range 64)) (hfuel : rows.length ≤ fuel) :
    ∃ res, st.merge bloomMasks fuel workers order = some res ∧ (res.buffer.map fun p => (res.mem p).key).Nodup ∧
      (∀ k, res.mem.combined res.buffer k = PreAggregation.combined Input.key Input.value rows k) ∧
      ∀ p ∈ res.buffer, ((res.mem p).value : WithZero A) = res.mem.combined res.buffer (res.mem p).key ∧
        findEntry res.mem (hash (res.mem p).key) (res.mem p).key fuel
          (res.lookup bloomMasks (hash (res.mem p).key)) = some (some p) := by
  have hperm : ((order.flatMap (st.input workers)).reverse ++ []).Perm (st.all workers) := by
    rw [append_nil]
    exact (reverse_perm _).trans (horder.flatMap_right _)
  have hstart : Merges bloomMasks (st.htMask workers) st.mem []
      ⟨st.mem, fun _ _ => 0, fun _ => none, []⟩ :=
    ⟨⟨fun _ _ => show untag 0 = 0 by decide, fun _ hp => (nomatch hp)⟩, .slnil, fun _ hp => (nomatch hp),
      fun _ => ⟨rfl, rfl⟩, fun _ _ => rfl, fun _ => rfl⟩
  have hall (p : Ptr) (hp : p ∈ (order.flatMap (st.input workers)).reverse ++ []) : Mergeable hash st.mem p :=
    h.mergeable hplaces (hperm.subset hp)
  have hid : ∀ i ∈ order, ∀ p ∈ st.input workers i, partition (st.mem p).hashValue = i :=
    fun i hi => h.inPartition i (mem_range.1 (horder.subset hi))
  have hlen : ((order.flatMap (st.input workers)).reverse ++ []).length ≤ fuel :=
    hperm.length_eq ▸ Nat.le_trans h.length_all_le hfuel
  obtain ⟨res, hrun, hres, hmask⟩ := hstart.order (hperm.nodup_iff.2 h.nodup) hall hid hlen
  have hnd : res.buffer.Nodup := hres.sublist.nodup (hperm.nodup_iff.2 h.nodup)
  refine ⟨res, hrun, hnd.map_on hres.distinct, fun k => ?_, fun p hp => ⟨?_, ?_⟩⟩
  · rw [hres.combined, ← h.combined k]
    exact combined_perm hperm
  · exact (combined_eq_of_injOn (fun p => (res.mem p).value) hnd hres.distinct hp).symm
  · exact hres.findEntry_lookup hp hall (fun i hi => hmask i (.inl (horder.symm.subset (mem_range.2 hi)))) hlen

end

/-- **Merging fragments**: the table has one entry for each key of the rows, with
the combination of its values, and the lookup of its hash leads to it. -/
theorem merge_complete (mem : Memory K A) (hplaces : Places alloc rows.length) (hworkers : workers.Nodup)
    (hrows : ∀ row ∈ rows, row.worker ∈ workers) (horder : order.Perm (List.range 64)) (hfuel : rows.length ≤ fuel) :
    ∃ res, ((State.init mem).aggregate hash alloc rows).merge bloomMasks fuel workers order = some res ∧
      (res.buffer.map fun p => (res.mem p).key).Nodup ∧
      (∀ k, k ∈ res.buffer.map (fun p => (res.mem p).key) ↔ k ∈ rows.map Input.key) ∧
      ∀ p ∈ res.buffer, ((res.mem p).value : WithZero A) = combined Input.key Input.value rows (res.mem p).key ∧
        findEntry res.mem (hash (res.mem p).key) (res.mem p).key fuel
          (res.lookup bloomMasks (hash (res.mem p).key)) = some (some p) := by
  have hst : Holds hash alloc workers (rows.reverse ++ []) ((State.init mem).aggregate hash alloc rows) :=
    (Holds.init mem).aggregate hplaces hworkers (Nat.le_refl _) hrows
  rw [append_nil] at hst
  rw [← length_reverse] at hplaces hfuel
  obtain ⟨res, hrun, hnd, hcombined, hentries⟩ := hst.merge hplaces horder hfuel
  have hcombined k : res.mem.combined res.buffer k = combined Input.key Input.value rows k :=
    (hcombined k).trans (combined_perm (reverse_perm rows))
  refine ⟨res, hrun, hnd, fun k => ?_, fun p hp => ?_⟩
  · have hzero : res.mem.combined res.buffer k = 0 ↔ combined Input.key Input.value rows k = 0 := by rw [hcombined]
    rw [Memory.combined, combined_eq_zero, combined_eq_zero] at hzero
    simpa using not_congr hzero
  · rw [← hcombined]
    exact hentries p hp

/-- Two workers, and two keys whose hashes fall into one slot and one bucket: the
second entry of the first key is made after the slot was taken. -/
theorem merge_complete_spilled :
    let rows : List (Input ℕ ℕ) := [⟨0, 1, 10⟩, ⟨0, 65537, 20⟩, ⟨0, 1, 30⟩, ⟨1, 1, 40⟩]
    let alloc (n : ℕ) : Ptr := BitVec.ofNat 64 (32 * (n + 1))
    Places alloc 4 ∧
      ∃ res, ((State.init fun _ => ⟨0, 0, 0, 0⟩).aggregate (BitVec.ofNat 64) alloc rows).merge (BitVec.ofNat 16) 4
          [0, 1] (List.range 64) = some res ∧
        (res.buffer.map fun p => (res.mem p).key).Nodup ∧
        (∀ k, k ∈ res.buffer.map (fun p => (res.mem p).key) ↔ k ∈ rows.map Input.key) ∧
        ∀ p ∈ res.buffer,
          WithZero.coe (res.mem p).value = combined Input.key Input.value rows (res.mem p).key ∧
          findEntry res.mem (BitVec.ofNat 64 (res.mem p).key) (res.mem p).key 4
            (res.lookup (BitVec.ofNat 16) (BitVec.ofNat 64 (res.mem p).key)) = some (some p) := by
  have hplaces : Places (fun n => BitVec.ofNat 64 (32 * (n + 1))) 4 := ⟨by decide, by decide, by decide⟩
  exact ⟨hplaces, merge_complete _ hplaces (by decide) (by decide) (.refl _) (Nat.le_refl _)⟩

end Merging

end GengoDB.PreAggregation
