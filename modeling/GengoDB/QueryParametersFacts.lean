/-
The parameters of a cached query are loaded as the constants they stand for
(`GengoDB.QueryParameters`), or not.

A copy stays in its slot (`slot_memcpy_of_ne`), so that a slot of the buffer is
that of its parameter alone (`filled`). What is loaded from it depends on the
width of an integer, on the kind of its attribute and on the length of a text
(`agrees_iff_encodes`).
-/
import GengoDB.ColumnHashFacts
import GengoDB.QueryParameters
import Mathlib.Tactic.Zify

namespace GengoDB.QueryParams

open Codec (putLE)

open List

/-! ## Slots -/

/-- The sixteen bytes of a slot. -/
def slot (buffer : Bytes) (id : ℕ) : Bytes := (buffer.drop (id * slotBytes)).take slotBytes

/-- The slot that `src` was copied to. -/
def padded (src : Bytes) : Bytes := src ++ replicate (slotBytes - src.length) 0

section Memcpy

variable {buffer buffer' src : Bytes} {id offset : ℕ}

theorem length_memcpy (h : memcpy buffer offset src = some buffer') : buffer'.length = buffer.length := by
  unfold memcpy at h
  split at h
  · cases h
    simp only [length_append, length_take, length_drop]
    omega
  · cases h

/-- A copy changes the bytes it covers. -/
theorem getElem?_memcpy (h : memcpy buffer offset src = some buffer') (i : ℕ) :
    buffer'[i]? = if offset ≤ i ∧ i < offset + src.length then src[i - offset]? else buffer[i]? := by
  unfold memcpy at h
  split at h
  · cases h
    simp only [append_assoc, getElem?_append, length_take, getElem?_take, getElem?_drop]
    split_ifs <;> first | rfl | omega | (congr 1; omega)
  · cases h

theorem getElem?_slot (buffer : Bytes) (id i : ℕ) :
    (slot buffer id)[i]? = if i < slotBytes then buffer[id * slotBytes + i]? else none := by
  simp only [slot, getElem?_take, getElem?_drop]

/-- Writing one slot never changes another. -/
theorem slot_memcpy_of_ne {id' : ℕ} (h : memcpy buffer (id * slotBytes) src = some buffer')
    (hsrc : src.length ≤ slotBytes) (hne : id' ≠ id) : slot buffer' id' = slot buffer id' := by
  apply ext_getElem?
  intro i
  rw [getElem?_slot, getElem?_slot]
  split
  · rw [getElem?_memcpy h, if_neg]
    simp only [slotBytes] at *
    omega
  · rfl

/-- A slot of zeros that is written. -/
theorem slot_memcpy_self (h : memcpy buffer (id * slotBytes) src = some buffer') (hsrc : src.length ≤ slotBytes)
    (hzero : slot buffer id = replicate slotBytes 0) : slot buffer' id = padded src := by
  apply ext_getElem?
  intro i
  have hold : i < slotBytes → buffer[id * slotBytes + i]? = some 0 := by
    intro hi
    have hslot := getElem?_slot buffer id i
    rwa [hzero, getElem?_replicate, if_pos hi, if_pos hi, eq_comm] at hslot
  rw [getElem?_slot, getElem?_memcpy h, padded, getElem?_append, getElem?_replicate]
  by_cases hi : i < src.length
  · rw [if_pos (by omega), if_pos (by omega), if_pos hi, Nat.add_sub_cancel_left]
  · by_cases hs : i < slotBytes
    · rw [if_pos hs, if_neg (by omega), if_neg hi, if_pos (by omega), hold hs]
    · rw [if_neg hs, if_neg hi, if_neg (by omega)]

end Memcpy

/-! ## The buffer -/

/-- The copy of a parameter: its number, and the bytes if there are any. -/
def copy (buffer : Bytes) (entry : ℕ × Option Bytes) : Option Bytes := do
  memcpy buffer (entry.1 * slotBytes) (← entry.2)

/-- The bytes that `writeLiteral` copies to the start of a slot. -/
def literalBytes (L : Library) (storage : ℕ) (literal : QueryParamLiteral) : Option Bytes :=
  match literal.type, literal.value with
  | .integer w, .integer _ v => some (putLE (min ((w + 7) / 8) 8) (v.toInt % 2 ^ 64).toNat)
  | .float .f32, .float _ d => some (putLE 4 (L.doubleToFloat d).toNat)
  | .float .f64, .float _ d => some (putLE 8 d.toNat)
  | .string, .string s => some (putLE 16 (Hash.writeVarLen32 s storage).toNat)
  | _, _ => none

theorem writeLiteral_eq (L : Library) (buffer : Bytes) (id : ℕ) (literal : QueryParamLiteral) (storage : ℕ) :
    writeLiteral L buffer id literal storage = copy buffer (id, literalBytes L storage literal) := by
  obtain ⟨value, type⟩ := literal
  cases type with
  | float type => cases type <;> cases value <;> rfl
  | integer w | string | other name => cases value <;> rfl

theorem length_literalBytes {L : Library} {storage : ℕ} {literal : QueryParamLiteral} {src : Bytes}
    (h : literalBytes L storage literal = some src) : src.length ≤ slotBytes := by
  unfold literalBytes at h
  split at h <;> cases h <;> simp [slotBytes]

/-- Copies to different slots: every slot holds what was copied to it. -/
theorem slot_foldlM_copy {writes : List (ℕ × Option Bytes)} {buffer buffer' : Bytes}
    (h : writes.foldlM copy buffer = some buffer') (hnodup : (writes.map Prod.fst).Nodup)
    (hlength : ∀ e ∈ writes, ∀ src, e.2 = some src → src.length ≤ slotBytes) :
    (∀ e ∈ writes, slot buffer e.1 = replicate slotBytes 0 → ∃ src, e.2 = some src ∧ slot buffer' e.1 = padded src) ∧
      ∀ id ∉ writes.map Prod.fst, slot buffer' id = slot buffer id := by
  induction writes generalizing buffer with
  | nil =>
    obtain rfl : buffer = buffer' := by simpa using h
    simp
  | cons w writes ih =>
    rw [foldlM_cons, Option.bind_eq_bind, Option.bind_eq_some_iff] at h
    obtain ⟨middle, hcopy, hrest⟩ := h
    obtain ⟨src, hsrc, hmemcpy⟩ := Option.bind_eq_some_iff.1 hcopy
    have hlen := hlength w (by simp) src hsrc
    rw [map_cons, nodup_cons] at hnodup
    obtain ⟨ihmem, ihother⟩ := ih hrest hnodup.2 fun e he => hlength e (mem_cons_of_mem _ he)
    have hkeep {id : ℕ} (hne : id ≠ w.1) : slot middle id = slot buffer id := slot_memcpy_of_ne hmemcpy hlen hne
    refine ⟨fun e he hzero => ?_, fun id hid => ?_⟩
    · rcases mem_cons.1 he with rfl | he
      · exact ⟨src, hsrc, by rw [ihother _ hnodup.1, slot_memcpy_self hmemcpy hlen hzero]⟩
      · have hne : e.1 ≠ w.1 := fun heq => hnodup.1 (heq ▸ mem_map_of_mem he)
        exact ihmem e he (by rw [hkeep hne, hzero])
    · rw [map_cons, mem_cons, not_or] at hid
      rw [ihother id hid.2, hkeep hid.1]

/-- Copies within the buffer succeed if there are bytes to copy. -/
theorem isSome_foldlM_copy {writes : List (ℕ × Option Bytes)} {buffer : Bytes} {n : ℕ}
    (hbuffer : buffer.length = n * slotBytes)
    (h : ∀ e ∈ writes, e.1 < n ∧ ∃ src, e.2 = some src ∧ src.length ≤ slotBytes) :
    (writes.foldlM copy buffer).isSome := by
  induction writes generalizing buffer with
  | nil => rfl
  | cons w writes ih =>
    obtain ⟨hlt, src, hsrc, hlen⟩ := h w (by simp)
    have hbounds : w.1 * slotBytes + src.length ≤ buffer.length := by
      have := Nat.mul_le_mul_right slotBytes (Nat.succ_le_of_lt hlt)
      rw [Nat.succ_mul] at this
      omega
    obtain ⟨middle, hmiddle⟩ : ∃ middle, memcpy buffer (w.1 * slotBytes) src = some middle := by
      simp [memcpy, hbounds]
    have hcopy : copy buffer w = some middle := by simp [copy, hsrc, hmiddle]
    rw [foldlM_cons, hcopy]
    exact ih ((length_memcpy hmiddle).trans hbuffer) fun e he => h e (mem_cons_of_mem _ he)

section Identifiers

variable {terms : List Term} {params : List ℕ}

theorem length_identifiers (terms : List Term) :
    (terms.filterMap fun
      | .identifier iri => some (⟨.string iri, .string⟩ : QueryParamLiteral)
      | .var _ => none).length = terms.countP Term.isIdentifier := by
  induction terms with
  | nil => rfl
  | cons t terms ih => cases t <;> simp [countP_cons, Term.isIdentifier, ih]

/-- The numbers of the identifiers, found slot by slot. -/
theorem filterMap_paramIdForSlot (pre ys : List Term) (h : params.length = (pre ++ ys).countP Term.isIdentifier) :
    (ys.zipIdx pre.length).filterMap (fun e => paramIdForSlot (pre ++ ys) params e.2) =
      params.drop (pre.countP Term.isIdentifier) := by
  induction ys generalizing pre with
  | nil => simp [drop_eq_nil_iff.mpr (show params.length ≤ pre.countP Term.isIdentifier by simp [h])]
  | cons y ys ih =>
    have hy : (pre ++ y :: ys)[pre.length]? = some y := by simp
    have htake : (pre ++ y :: ys).take pre.length = pre := by simp
    have ih' := ih (pre ++ [y]) (by simpa using h)
    simp only [append_assoc, singleton_append, length_append, length_singleton] at ih'
    rw [zipIdx_cons, filterMap_cons]
    cases hp : y.isIdentifier with
    | false =>
      have hnone : paramIdForSlot (pre ++ y :: ys) params pre.length = none := by simp [paramIdForSlot, hp]
      simp only [hnone]
      simpa [hp] using ih'
    | true =>
      have hlt : pre.countP Term.isIdentifier < params.length := by simp [h, hp]
      have hid : paramIdForSlot (pre ++ y :: ys) params pre.length = some params[pre.countP Term.isIdentifier] := by
        simp [paramIdForSlot, hp]
      simp only [hid]
      rw [ih', drop_eq_getElem_cons hlt, countP_append, countP_singleton, if_pos hp]

end Identifiers

namespace Context

variable (C : Context)

/-- The copies of an operator. -/
def writes (o : MarkedOp) : List (ℕ × Option Bytes) :=
  match o.op with
  | .selection _ => (o.op.getParamLiterals.zip o.params).map fun e =>
    (e.2, literalBytes C.library (C.allocLiteral e.2) e.1)
  | .graph name terms => terms.zipIdx.filterMap fun e =>
    match e.1, paramIdForSlot terms o.params e.2 with
    | .identifier iri, some id => some (id, some (putLE 4 (C.resolve name iri).toNat))
    | _, _ => none

theorem writeParams_eq (buffer : Bytes) (o : MarkedOp) : C.writeParams buffer o = (C.writes o).foldlM copy buffer := by
  obtain ⟨op, params⟩ := o
  cases op with
  | selection constants =>
    simp only [writeParams, writes, foldlM_map, writeLiteral_eq]
  | graph name terms =>
    simp only [writeParams, writes, foldlM_filterMap]
    congr 1
    funext buffer e
    rcases e with ⟨_ | _, slot⟩
    · cases paramIdForSlot terms params slot <;> rfl
    · rfl

theorem buildQueryParamBuffer_eq (m : Module) : C.buildQueryParamBuffer m =
    ((parameterize m).flatMap C.writes).foldlM copy (replicate (paramCount m * slotBytes) 0) := by
  rw [buildQueryParamBuffer]
  generalize replicate (paramCount m * slotBytes) (0 : Codec.Byte) = buffer
  induction parameterize m generalizing buffer with
  | nil => rfl
  | cons o os ih =>
    rw [foldlM_cons, flatMap_cons, foldlM_append, writeParams_eq]
    congr 1
    funext buffer
    exact ih buffer

/-- An operator writes the slots of its numbers, each once. -/
theorem map_fst_writes (op : Parameterizable) (next : ℕ) :
    (C.writes ⟨op, range' next op.getParamLiterals.length⟩).map Prod.fst =
      range' next op.getParamLiterals.length := by
  cases op with
  | selection constants =>
    simp only [writes, map_map]
    exact map_snd_zip (by simp)
  | graph name terms =>
    refine Eq.trans ?_ (filterMap_paramIdForSlot [] terms (by rw [length_range']; exact length_identifiers terms))
    simp only [writes, map_filterMap]
    apply filterMap_congr
    rintro ⟨t, slot⟩ hmem
    have ht := mem_zipIdx_iff_getElem?.mp hmem
    cases t with
    | identifier iri => cases hid : paramIdForSlot terms _ slot <;> simp [hid]
    | var text => simp [paramIdForSlot, ht, Term.isIdentifier]

theorem map_fst_writes_parameterizeFrom (m : Module) (next : ℕ) :
    ((parameterizeFrom next m).flatMap C.writes).map Prod.fst = range' next (paramCount m) := by
  induction m generalizing next with
  | nil => rfl
  | cons op ops ih =>
    have hcount : paramCount (op :: ops) = op.getParamLiterals.length + paramCount ops := by simp [paramCount]
    rw [parameterizeFrom, flatMap_cons, map_append, map_fst_writes, ih, hcount, range'_append_1]

end Context

/-! ## Loads -/

section Load

variable {buffer src : Bytes} {id : ℕ}

theorem littleEndian_putLE (n x : ℕ) : littleEndian (putLE n x) = x % 256 ^ n := by
  induction n generalizing x with
  | zero => simp [putLE, littleEndian, Nat.mod_one]
  | succ n ih => rw [putLE, littleEndian, ih, Nat.pow_succ', Nat.mod_mul]

theorem littleEndian_padded (src : Bytes) : littleEndian (padded src) = littleEndian src := by
  have hzeros (n : ℕ) : littleEndian (replicate n 0) = 0 := by
    induction n with
    | zero => rfl
    | succ n ih => simp [replicate_succ, littleEndian, ih]
  rw [padded, Hash.littleEndian_append, hzeros, mul_zero, add_zero]

theorem readBytes_slot (len : ℕ) (hsrc : src.length ≤ slotBytes) (hslot : slot buffer id = padded src)
    (hlen : len ≤ slotBytes) : ∃ bytes, readBytes buffer (id * slotBytes) len = some bytes ∧
      littleEndian bytes = littleEndian src % 256 ^ len := by
  have hlength : (slot buffer id).length = slotBytes := by
    rw [hslot, padded, length_append, length_replicate]
    omega
  rw [slot, length_take, length_drop] at hlength
  have htake : (buffer.drop (id * slotBytes)).take len = (padded src).take len := by
    rw [← hslot, slot, take_take, min_eq_left hlen]
  refine ⟨(padded src).take len, ?_, ?_⟩
  · have hbounds : id * slotBytes + len ≤ buffer.length := by
      simp only [slotBytes] at *
      omega
    rw [readBytes, if_pos hbounds, htake]
  · rw [Hash.littleEndian_take, littleEndian_padded]

/-- An integer loaded from a slot with `k` bytes of `x`. -/
theorem loadSlot_integer {k w x : ℕ} (hk : k ≤ slotBytes) (hw : w ≤ 128)
    (hslot : slot buffer id = padded (putLE k x)) : loadSlot buffer id (.integer w) =
      if x % 256 ^ k % 256 ^ ((w + 7) / 8) < 2 ^ w then
        some (.integer w (BitVec.ofNat w (x % 256 ^ k % 256 ^ ((w + 7) / 8)))) else none := by
  obtain ⟨bytes, hread, hvalue⟩ := readBytes_slot ((w + 7) / 8) (by simpa using hk) hslot
    (by simp only [slotBytes]; omega)
  rw [littleEndian_putLE] at hvalue
  simp only [loadSlot, hread, Option.bind_eq_bind, Option.bind_some, hvalue]
  rfl

theorem loadSlot_string {bits : BitVec 128} (hslot : slot buffer id = padded (putLE 16 bits.toNat)) :
    loadSlot buffer id .string = some (.varLen32 bits) := by
  obtain ⟨bytes, hread, hvalue⟩ := readBytes_slot 16 (by simp [slotBytes]) hslot (by simp [slotBytes])
  have hlt : bits.toNat < 256 ^ 16 := bits.isLt
  rw [littleEndian_putLE, Nat.mod_mod, Nat.mod_eq_of_lt hlt] at hvalue
  simp only [loadSlot, hread, Option.bind_eq_bind, Option.bind_some, hvalue, BitVec.ofNat_toNat, BitVec.setWidth_eq]
  rfl

end Load

/-! ## Slots against constants -/

/-- The slot of a parameter whose bytes are `src`, written alone. -/
theorem memcpy_zeros {src : Bytes} (hsrc : src.length ≤ slotBytes) :
    memcpy (replicate slotBytes 0) (0 * slotBytes) src = some (padded src) := by
  simp [memcpy, padded, hsrc]

/-- The constant of the uncached code, where there is one, is what the cached
code loads from the slot the literal was written to, whatever the rest of the
buffer. -/
def Agrees (L : Library) (c : ConstOp) : Prop :=
  ∀ address value, constant L address c = some value →
    ∃ s, writeLiteral L (replicate slotBytes 0) 0 c.literal address = some s ∧
      ∀ buffer id, slot buffer id = s → loadSlot buffer id c.literal.type = some value

/-- The literals that are loaded as their constants. -/
def Encodes (L : Library) : ConstOp → Prop
  | .arith (.integer w v) => w ≤ 128 ∧ (w ≤ 64 ∧ w % 8 = 0 ∨ 0 ≤ v.toInt ∧ v.toInt < 2 ^ 64)
  | .db (.integer w) (.integer _ v) =>
    w = 1 → InInt64 v.toInt → v.toInt = 0 ∨ v.toInt % 256 = 1
  | .db .string (.string s) => s.length % 2 ^ 64 / 2 ^ 32 ||| littleEndian (s.take 4) = littleEndian (s.take 4)
  | c => ∀ address, constant L address c = none

section Integers

variable {w : ℕ}

/-- The number in the bytes of an integer: the integer is loaded from them
exactly if they are those a store of its type would leave. -/
theorem emod_eq_toNat_iff (v : BitVec w) :
    v.toInt % 2 ^ (8 * min ((w + 7) / 8) 8) = v.toNat ↔ w ≤ 64 ∧ w % 8 = 0 ∨ 0 ≤ v.toInt ∧ v.toInt < 2 ^ 64 := by
  have hlt : v.toNat < 2 ^ w := v.isLt
  have hcond := BitVec.toInt_eq_toNat_cond v
  by_cases hw : w ≤ 64
  · -- the bytes hold the sign extension of `v`
    obtain ⟨n, hn⟩ : ∃ n, 8 * min ((w + 7) / 8) 8 = n := ⟨_, rfl⟩
    have hwn : w ≤ n := by omega
    have hmod : n = w ↔ w % 8 = 0 := by omega
    have hpow : (2 : ℕ) ^ w ≤ 2 ^ n := Nat.pow_le_pow_right (by decide) hwn
    have hpow64 : (2 : ℕ) ^ w ≤ 2 ^ 64 := Nat.pow_le_pow_right (by decide) hw
    have hinj : (2 : ℕ) ^ n = 2 ^ w ↔ n = w := Nat.pow_right_injective le_rfl |>.eq_iff
    rw [hn]
    zify at hlt hpow hpow64 hinj
    split at hcond
    · rw [hcond, Int.emod_eq_of_lt (by omega) (by omega)]
      omega
    · have hneg : v.toInt % 2 ^ n = v.toNat - 2 ^ w + 2 ^ n := by
        rw [hcond]
        push_cast
        rw [← Int.add_emod_right, Int.emod_eq_of_lt (by omega) (by omega)]
      rw [hneg]
      push_cast at hcond
      omega
  · have hbytes : 8 * min ((w + 7) / 8) 8 = 64 := by omega
    have hpow : (2 : ℕ) ^ 65 ≤ 2 ^ w := Nat.pow_le_pow_right (by decide) (by omega)
    rw [hbytes]
    split at hcond <;> omega

theorem cast_low_bytes (x : ℤ) {k l : ℕ} (hk : k ≤ 8) (hkl : k ≤ l) :
    ((((x % 2 ^ 64).toNat % 256 ^ k % 256 ^ l : ℕ)) : ℤ) = x % 2 ^ (8 * k) := by
  have h256 : (256 : ℕ) ^ k = 2 ^ (8 * k) := (Nat.pow_mul 2 8 k).symm
  have hle : (256 : ℕ) ^ k ≤ 256 ^ l := Nat.pow_le_pow_right (by decide) hkl
  have hlt : (x % 2 ^ 64).toNat % 256 ^ k < 256 ^ l := (Nat.mod_lt _ (Nat.pow_pos (by decide))).trans_le hle
  have hdvd : ((2 : ℤ) ^ (8 * k)) ∣ 2 ^ 64 := pow_dvd_pow 2 (by omega)
  rw [Nat.mod_eq_of_lt hlt, h256, Int.natCast_mod, Int.toNat_of_nonneg (Int.emod_nonneg _ (by decide)), Nat.cast_pow]
  exact Int.emod_emod_of_dvd x hdvd

/-- What is loaded from the slot of the integer `x`. -/
theorem loadSlot_eq_some_iff {buffer : Bytes} {id : ℕ} {x : ℤ} (hw : w ≤ 128)
    (hslot : slot buffer id = padded (putLE (min ((w + 7) / 8) 8) (x % 2 ^ 64).toNat)) (u : BitVec w) :
    loadSlot buffer id (.integer w) = some (.integer w u) ↔ x % 2 ^ (8 * min ((w + 7) / 8) 8) = u.toNat := by
  rw [loadSlot_integer (by simp only [slotBytes]; omega) hw hslot,
    ← cast_low_bytes x (l := (w + 7) / 8) (by omega) (by omega)]
  generalize (x % 2 ^ 64).toNat % 256 ^ min ((w + 7) / 8) 8 % 256 ^ ((w + 7) / 8) = n
  have hu := u.isLt
  split
  · rename_i hn
    simp only [Option.some.injEq, Value.integer.injEq, heq_eq_eq, true_and, Int.natCast_inj, ← BitVec.toNat_inj,
      BitVec.toNat_ofNat, Nat.mod_eq_of_lt hn]
  · rename_i hn
    simp only [reduceCtorEq, Int.natCast_inj, false_iff]
    omega

end Integers

section Agreement

variable {L : Library}

/-- The slot of the bytes `src`, against a constant. -/
theorem agrees_iff {c : ConstOp} {value : Value} {src : Bytes} (hconstant : ∀ address, constant L address c = some value)
    (hwrite : ∀ address, writeLiteral L (replicate slotBytes 0) 0 c.literal address = some (padded src)) :
    Agrees L c ↔ ∀ buffer id, slot buffer id = padded src → loadSlot buffer id c.literal.type = some value := by
  refine ⟨fun h buffer id hslot => ?_, fun h address value' hvalue => ?_⟩
  · obtain ⟨s, hs, hload⟩ := h 0 value (hconstant 0)
    cases (hwrite 0).symm.trans hs
    exact hload buffer id hslot
  · cases (hconstant address).symm.trans hvalue
    exact ⟨padded src, hwrite address, h⟩

theorem agrees_of_constant_none {c : ConstOp} (h : ∀ address, constant L address c = none) : Agrees L c := by
  intro address value hvalue
  cases (h address).symm.trans hvalue

theorem writeLiteral_integer {w w' : ℕ} (v : BitVec w') (address : ℕ) :
    writeLiteral L (replicate slotBytes 0) 0 ⟨.integer w' v, .integer w⟩ address =
      some (padded (putLE (min ((w + 7) / 8) 8) (v.toInt % 2 ^ 64).toNat)) := by
  refine memcpy_zeros ?_
  simp only [Codec.length_putLE, slotBytes]
  omega

theorem length_padded {src : Bytes} (h : src.length ≤ slotBytes) : (padded src).length = slotBytes := by
  rw [padded, length_append, length_replicate]
  omega

theorem slot_padded (src : Bytes) (h : src.length ≤ slotBytes) : slot (padded src) 0 = padded src := by
  rw [slot, Nat.zero_mul, drop_zero, ← length_padded h, take_length]

/-- A load of more than 128 bits leaves a buffer of one slot. -/
theorem loadSlot_wide {src : Bytes} {w : ℕ} (h : src.length ≤ slotBytes) (hw : 128 < w) :
    loadSlot (padded src) 0 (.integer w) = none := by
  have hread : readBytes (padded src) (0 * slotBytes) ((w + 7) / 8) = none := by
    rw [readBytes, length_padded h, if_neg (by simp only [slotBytes]; omega)]
  simp only [loadSlot, hread]
  rfl

theorem agrees_arith_integer_iff {w : ℕ} (v : BitVec w) :
    Agrees L (.arith (.integer w v)) ↔ Encodes L (.arith (.integer w v)) := by
  rw [agrees_iff (fun _ => rfl) (writeLiteral_integer v)]
  simp only [Encodes, ← emod_eq_toNat_iff v]
  refine ⟨fun h => ?_, fun h buffer id hslot => (loadSlot_eq_some_iff h.1 hslot v).2 h.2⟩
  have hbytes : (putLE (min ((w + 7) / 8) 8) (v.toInt % 2 ^ 64).toNat).length ≤ slotBytes := by
    simp only [Codec.length_putLE, slotBytes]
    omega
  have hload := h _ 0 (slot_padded _ hbytes)
  have hw : w ≤ 128 := by
    by_contra hw
    cases (loadSlot_wide hbytes (not_le.1 hw)).symm.trans hload
  exact ⟨hw, (loadSlot_eq_some_iff hw (slot_padded _ hbytes) v).1 hload⟩

/-- An integer attribute that `parse` reads as `x`. -/
theorem agrees_db_integer {w w' : ℕ} {v : BitVec w'} {x : ℤ} (hw : w ≤ 128) (hint : InInt64 v.toInt)
    (hx : parseInteger L w (.int v.toInt) = some x) : Agrees L (.db (.integer w) (.integer w' v)) ↔
      v.toInt % 2 ^ (8 * min ((w + 7) / 8) 8) = (BitVec.ofInt w x).toNat := by
  have hvalue (address : ℕ) :
      constant L address (.db (.integer w) (.integer w' v)) = some (.integer w (BitVec.ofInt w x)) := by
    simp [constant, constantLowering, ValueAttr.parseArg, hint, hx]
  have hbytes : (putLE (min ((w + 7) / 8) 8) (v.toInt % 2 ^ 64).toNat).length ≤ slotBytes := by
    simp only [Codec.length_putLE, slotBytes]
    omega
  rw [agrees_iff hvalue (writeLiteral_integer v)]
  refine ⟨fun h => ?_, fun h buffer id hslot => (loadSlot_eq_some_iff hw hslot _).2 h⟩
  exact (loadSlot_eq_some_iff hw (slot_padded _ hbytes) _).1 (h _ 0 (slot_padded _ hbytes))

theorem agrees_db_integer_iff {w w' : ℕ} (v : BitVec w') :
    Agrees L (.db (.integer w) (.integer w' v)) ↔ Encodes L (.db (.integer w) (.integer w' v)) := by
  by_cases hint : InInt64 v.toInt
  · by_cases hone : w = 1
    · subst hone
      rw [agrees_db_integer (by decide) hint rfl]
      simp only [Encodes, true_imp_iff, hint, Nat.reduceAdd, Nat.reduceDiv]
      split <;> simp <;> omega
    · refine iff_of_true ?_ fun h => absurd h hone
      by_cases hknown : w ∈ [8, 16, 32, 64]
      · have hx : parseInteger L w (.int v.toInt) = some v.toInt := by simp [parseInteger, hone, hknown, parseInt]
        have hbytes : 8 * min ((w + 7) / 8) 8 = w := by
          simp only [mem_cons, not_mem_nil, or_false] at hknown
          omega
        have hw : w ≤ 128 := by omega
        rw [agrees_db_integer hw hint hx, hbytes, BitVec.toNat_ofInt]
        exact (Int.toNat_of_nonneg (Int.emod_nonneg _ (pow_ne_zero w two_ne_zero))).symm
      · -- `ConstantLowering` knows no such type
        refine agrees_of_constant_none fun address => ?_
        simp [constant, constantLowering, ValueAttr.parseArg, hint, parseInteger, hone, hknown]
  · refine iff_of_true (agrees_of_constant_none fun address => ?_) fun _ h => absurd h hint
    simp [constant, constantLowering, ValueAttr.parseArg, hint]

theorem setWidth_low_or (x y : BitVec 64) : (x.setWidth 128 ||| y.setWidth 128 <<< 64).setWidth 64 = x := by
  apply BitVec.eq_of_getLsbD_eq
  intro i hi
  simp [hi]

/-- The narrowed length loses no bit exactly if those it has beyond 32 are among
those of the first four bytes. -/
theorem writeVarLen32_eq_iff (str : Bytes) :
    (∀ address, Hash.writeVarLen32 str address = Hash.createConstVarLen str address) ↔
      str.length % 2 ^ 64 / 2 ^ 32 ||| littleEndian (str.take 4) = littleEndian (str.take 4) := by
  have hf : littleEndian (str.take 4) < 2 ^ 32 := by
    rw [Hash.littleEndian_take]
    exact Nat.mod_lt _ (by decide)
  obtain ⟨f, hfirst⟩ : ∃ f, littleEndian (str.take 4) = f := ⟨_, rfl⟩
  obtain ⟨q, hq⟩ : ∃ q, str.length % 2 ^ 64 / 2 ^ 32 = q := ⟨_, rfl⟩
  obtain ⟨r, hr⟩ : ∃ r, str.length % 2 ^ 32 = r := ⟨_, rfl⟩
  have hor : f ||| q < 2 ^ 32 := Nat.or_lt_two_pow (by omega) (by omega)
  have hlow : (BitVec.ofNat 32 str.length).setWidth 64 = BitVec.ofNat 64 r := by
    rw [← BitVec.toNat_inj]
    simp only [BitVec.toNat_setWidth, BitVec.toNat_ofNat]
    omega
  have hlen : BitVec.ofNat 64 str.length = BitVec.ofNat 64 q <<< 32 ||| BitVec.ofNat 64 r := by
    rw [← BitVec.toNat_inj, Hash.toNat_shiftLeft_or] <;> simp only [BitVec.toNat_ofNat] <;> omega
  have hnarrow : (BitVec.ofNat 64 f <<< 32 ||| BitVec.ofNat 64 r).toNat = r + 2 ^ 32 * f := by
    rw [Hash.toNat_shiftLeft_or] <;> simp only [BitVec.toNat_ofNat] <;> omega
  have hwide : (BitVec.ofNat 64 f <<< 32 ||| (BitVec.ofNat 64 q <<< 32 ||| BitVec.ofNat 64 r)).toNat =
      r + 2 ^ 32 * (f ||| q) := by
    have hbits : (BitVec.ofNat 64 f ||| BitVec.ofNat 64 q).toNat = f ||| q := by
      rw [BitVec.toNat_or, BitVec.toNat_ofNat, BitVec.toNat_ofNat, Nat.mod_eq_of_lt (by omega),
        Nat.mod_eq_of_lt (by omega)]
    rw [← BitVec.or_assoc, ← BitVec.shiftLeft_or_distrib, Hash.toNat_shiftLeft_or] <;>
      simp only [hbits, BitVec.toNat_ofNat] <;> omega
  rw [hq, hfirst, Nat.or_comm]
  simp only [Hash.writeVarLen32, Hash.createConstVarLen, hfirst, hlow, hlen]
  refine ⟨fun h => ?_, fun h address => ?_⟩
  · have hword := congrArg (fun bits => (bits.setWidth 64).toNat) (h 0)
    simp only [setWidth_low_or, hnarrow, hwide] at hword
    omega
  · have hword : BitVec.ofNat 64 f <<< 32 ||| BitVec.ofNat 64 r =
        BitVec.ofNat 64 f <<< 32 ||| (BitVec.ofNat 64 q <<< 32 ||| BitVec.ofNat 64 r) := by
      rw [← BitVec.toNat_inj, hnarrow, hwide, h]
    rw [hword]

/-- A text, up to the address of its bytes. -/
theorem agrees_string_iff (str : Bytes) :
    Agrees L (.db .string (.string str)) ↔ Encodes L (.db .string (.string str)) := by
  have hconstant (address : ℕ) : constant L address (.db .string (.string str)) =
      some (.varLen32 (Hash.createConstVarLen str address)) := rfl
  have hwrite (address : ℕ) : writeLiteral L (replicate slotBytes 0) 0 ⟨.string str, .string⟩ address =
      some (padded (putLE 16 (Hash.writeVarLen32 str address).toNat)) := by
    simp only [writeLiteral, writeVarLen32]
    exact memcpy_zeros (by simp [slotBytes])
  rw [Encodes, ← writeVarLen32_eq_iff]
  refine ⟨fun h address => ?_, fun h address value hvalue => ?_⟩
  · obtain ⟨s, hs, hload⟩ := h address _ (hconstant address)
    cases (hwrite address).symm.trans hs
    have hslot := slot_padded (putLE 16 (Hash.writeVarLen32 str address).toNat) (by simp [slotBytes])
    simpa using (loadSlot_string hslot).symm.trans (hload _ 0 hslot)
  · cases (hconstant address).symm.trans hvalue
    refine ⟨_, hwrite address, fun buffer id hslot => ?_⟩
    rw [← h address]
    exact loadSlot_string hslot

/-- An attribute of another kind than the type is not written. -/
theorem agrees_other_kind_iff {type : ConstType} {value : ValueAttr}
    (h : ∀ address, writeLiteral L (replicate slotBytes 0) 0 ⟨value, type⟩ address = none) :
    Agrees L (.db type value) ↔ ∀ address, constant L address (.db type value) = none := by
  refine ⟨fun hagrees address => ?_, agrees_of_constant_none⟩
  by_contra hsome
  obtain ⟨v, hv⟩ := Option.ne_none_iff_exists'.1 hsome
  obtain ⟨s, hs, -⟩ := hagrees address v hv
  cases (h address).symm.trans hs

theorem agrees_iff_encodes {c : ConstOp} (hcacheable : isCacheableQueryParamType c.literal.type)
    (hfloat : ∀ type, c.literal.type ≠ .float type) : Agrees L c ↔ Encodes L c := by
  cases c with
  | arith value =>
    cases value with
    | integer w v => exact agrees_arith_integer_iff v
    | float type d => exact absurd rfl (hfloat type)
    | string str => exact iff_of_true (agrees_of_constant_none fun _ => rfl) fun _ => rfl
  | db type value =>
    cases type with
    | integer w =>
      cases value with
      | integer w' v => exact agrees_db_integer_iff v
      | float | string => exact agrees_other_kind_iff fun _ => rfl
    | string =>
      cases value with
      | string str => exact agrees_string_iff str
      | integer | float => exact agrees_other_kind_iff fun _ => rfl
    | float type => exact absurd rfl (hfloat type)
    | other name => cases hcacheable

end Agreement

/-! ## A whole module -/

/-- Every slot holds what its parameter alone, written to a slot of zeros,
leaves there. -/
structure Filled (C : Context) (m : Module) (buffer : Bytes) : Prop where
  literal : ∀ o ∈ parameterize m, ∀ constants, o.op = .selection constants →
    ∀ e ∈ o.op.getParamLiterals.zip o.params,
      writeLiteral C.library (replicate slotBytes 0) 0 e.1 (C.allocLiteral e.2) = some (slot buffer e.2)
  identifier : ∀ o ∈ parameterize m, ∀ name terms, o.op = .graph name terms → ∀ i iri id,
    terms[i]? = some (.identifier iri) → paramIdForSlot terms o.params i = some id →
      writeI32 (replicate slotBytes 0) 0 (C.resolve name iri) = some (slot buffer id)

section Whole

variable (C : Context) {m : Module} {buffer : Bytes}

theorem length_writes {o : MarkedOp} {e : ℕ × Option Bytes} (he : e ∈ C.writes o) {src : Bytes}
    (hsrc : e.2 = some src) : src.length ≤ slotBytes := by
  obtain ⟨op, params⟩ := o
  cases op with
  | selection constants =>
    obtain ⟨entry, -, rfl⟩ := mem_map.1 he
    exact length_literalBytes hsrc
  | graph name terms =>
    obtain ⟨⟨t, i⟩, -, hwrite⟩ := mem_filterMap.1 he
    cases t with
    | var name => cases hwrite
    | identifier iri =>
      cases hid : paramIdForSlot terms params i with
      | none => simp [hid] at hwrite
      | some id =>
        simp only [hid, Option.some.injEq] at hwrite
        subst hwrite
        cases hsrc
        simp [slotBytes]

/-- Every copy has its own slot. -/
theorem slot_build (hbuild : C.buildQueryParamBuffer m = some buffer) {o : MarkedOp} (ho : o ∈ parameterize m)
    {e : ℕ × Option Bytes} (he : e ∈ C.writes o) : ∃ src, e.2 = some src ∧ slot buffer e.1 = padded src := by
  rw [C.buildQueryParamBuffer_eq] at hbuild
  have hids := C.map_fst_writes_parameterizeFrom m 0
  rw [← parameterize] at hids
  have hmem : e ∈ (parameterize m).flatMap C.writes := mem_flatMap_of_mem ho he
  have hlt : e.1 < paramCount m := by
    have hid : e.1 ∈ range' 0 (paramCount m) := hids ▸ mem_map_of_mem hmem
    simpa using hid
  have hslots := slot_foldlM_copy hbuild (by rw [hids]; exact nodup_range') fun e' he' src hsrc => by
    obtain ⟨o', -, he'⟩ := mem_flatMap.1 he'
    exact length_writes C he' hsrc
  refine hslots.1 e hmem ?_
  have hle := Nat.mul_le_mul_right slotBytes (Nat.succ_le_of_lt hlt)
  rw [Nat.succ_mul] at hle
  rw [slot, drop_replicate, take_replicate, min_eq_left (by omega)]

theorem filled (hbuild : C.buildQueryParamBuffer m = some buffer) : Filled C m buffer where
  literal := by
    rintro ⟨_, params⟩ ho constants rfl e he
    obtain ⟨src, hsrc, hslot⟩ := slot_build C hbuild ho (mem_map_of_mem he)
    rw [writeLiteral_eq, copy, hsrc, hslot]
    exact memcpy_zeros (length_literalBytes hsrc)
  identifier := by
    rintro ⟨_, params⟩ ho name terms rfl i iri id hterm hid
    have hmem : (id, some (putLE 4 (C.resolve name iri).toNat)) ∈ C.writes ⟨.graph name terms, params⟩ :=
      mem_filterMap.2 ⟨(.identifier iri, i), mem_zipIdx_iff_getElem?.2 hterm, by simp [hid]⟩
    obtain ⟨src, hsrc, hslot⟩ := slot_build C hbuild ho hmem
    cases hsrc
    rw [hslot]
    exact memcpy_zeros (by simp [slotBytes])

theorem op_mem_of_mem_parameterizeFrom {o : MarkedOp} {next : ℕ} (ho : o ∈ parameterizeFrom next m) : o.op ∈ m := by
  induction m generalizing next with
  | nil => simp [parameterizeFrom] at ho
  | cons op ops ih =>
    rw [parameterizeFrom, mem_cons] at ho
    rcases ho with rfl | ho
    · exact mem_cons_self
    · exact mem_cons_of_mem _ (ih ho)

/-- The buffer is built if every literal can be written. -/
theorem exists_build (h : ∀ op ∈ m, ∀ constants, op = .selection constants → ∀ literal ∈ op.getParamLiterals,
    ∀ address, (writeLiteral C.library (replicate slotBytes 0) 0 literal address).isSome) :
    ∃ buffer, C.buildQueryParamBuffer m = some buffer := by
  rw [← Option.isSome_iff_exists, C.buildQueryParamBuffer_eq]
  refine isSome_foldlM_copy length_replicate fun e he => ⟨?_, ?_⟩
  · have hid : e.1 ∈ range' 0 (paramCount m) := C.map_fst_writes_parameterizeFrom m 0 ▸ mem_map_of_mem he
    simpa using hid
  · obtain ⟨o, ho, he⟩ := mem_flatMap.1 he
    suffices hsome : e.2.isSome by
      obtain ⟨src, hsrc⟩ := Option.isSome_iff_exists.1 hsome
      exact ⟨src, hsrc, length_writes C he hsrc⟩
    have hop := op_mem_of_mem_parameterizeFrom ho
    obtain ⟨op, params⟩ := o
    cases op with
    | selection constants =>
      obtain ⟨entry, hentry, rfl⟩ := mem_map.1 he
      have hwrite := h _ hop constants rfl entry.1 (of_mem_zip hentry).1 (C.allocLiteral entry.2)
      rw [writeLiteral_eq] at hwrite
      exact Option.isSome_of_isSome_bind hwrite
    | graph name terms =>
      obtain ⟨⟨t, i⟩, -, hwrite⟩ := mem_filterMap.1 he
      cases t with
      | var name => cases hwrite
      | identifier iri =>
        cases hid : paramIdForSlot terms params i with
        | none => simp [hid] at hwrite
        | some id =>
          simp only [hid, Option.some.injEq] at hwrite
          subst hwrite
          rfl

/-- A literal is loaded from the buffer of its module as the constant it stands
for. -/
theorem loadSlot_build (hbuild : C.buildQueryParamBuffer m = some buffer) {constants : List ConstOp} {params : List ℕ}
    (ho : ⟨.selection constants, params⟩ ∈ parameterize m) {e : ConstOp × ℕ}
    (he : e ∈ (constants.filter fun c => isCacheableQueryParamType c.literal.type).zip params)
    (hagrees : Agrees C.library e.1) {value : Value} (hvalue : constant C.library (C.allocLiteral e.2) e.1 = some value) :
    loadSlot buffer e.2 e.1.literal.type = some value := by
  have hmem : (e.1.literal, e.2) ∈ (Parameterizable.selection constants).getParamLiterals.zip params := by
    rw [Parameterizable.getParamLiterals, filter_map, zip_map_left]
    exact mem_map_of_mem (f := Prod.map ConstOp.literal id) he
  obtain ⟨s, hs, hload⟩ := hagrees _ value hvalue
  cases ((filled C hbuild).literal _ ho constants rfl _ hmem).symm.trans hs
  exact hload buffer e.2 rfl

end Whole

/-- **The parameters of a query.** In the buffer of a module no write has
changed another slot, and the buffer is built if every literal can be written.
A literal that is no floating point number is loaded as its constant exactly if
it is one of `Encodes`; such literals are loaded so from the buffer. -/
theorem load_slots_iff (C : Context) (m : Module) :
    (∀ buffer, C.buildQueryParamBuffer m = some buffer → Filled C m buffer) ∧
    ((∀ op ∈ m, ∀ constants, op = .selection constants → ∀ literal ∈ op.getParamLiterals, ∀ address,
      (writeLiteral C.library (replicate slotBytes 0) 0 literal address).isSome) →
        ∃ buffer, C.buildQueryParamBuffer m = some buffer) ∧
    (∀ c : ConstOp, isCacheableQueryParamType c.literal.type → (∀ type, c.literal.type ≠ .float type) →
      (Agrees C.library c ↔ Encodes C.library c)) ∧
    ∀ buffer, C.buildQueryParamBuffer m = some buffer →
      ∀ constants params, ⟨.selection constants, params⟩ ∈ parameterize m →
        ∀ e ∈ (constants.filter fun c => isCacheableQueryParamType c.literal.type).zip params,
          (∀ type, e.1.literal.type ≠ .float type) → Encodes C.library e.1 →
            ∀ value, constant C.library (C.allocLiteral e.2) e.1 = some value →
              loadSlot buffer e.2 e.1.literal.type = some value := by
  refine ⟨fun _ => filled C, exists_build C, fun c => agrees_iff_encodes, ?_⟩
  intro buffer hbuild constants params ho e he hfloat hencodes value hvalue
  have hcacheable : isCacheableQueryParamType e.1.literal.type := (mem_filter.1 (of_mem_zip he).1).2
  exact loadSlot_build C hbuild ho he ((agrees_iff_encodes hcacheable hfloat).2 hencodes) hvalue

/-- The constant `-1` of 128 bits is loaded as 2⁶⁴ - 1, and the bytes of `true`
are none that a load of one bit is defined for. -/
theorem load_slot_differs :
    (∀ L : Library, constant L 0 (.arith (.integer 128 (-1))) = some (.integer 128 (-1)) ∧
      (writeLiteral L (replicate slotBytes 0) 0 ⟨.integer 128 (-1), .integer 128⟩ 0).bind
        (loadSlot · 0 (.integer 128)) = some (.integer 128 18446744073709551615)) ∧
    ∀ L : Library, constant L 0 (.db (.integer 1) (.integer 1 1)) = some (.integer 1 1) ∧
      writeLiteral L (replicate slotBytes 0) 0 ⟨.integer 1 1, .integer 1⟩ 0 = some (255 :: replicate 15 0) ∧
      loadSlot (255 :: replicate 15 0) 0 (.integer 1) = none := by
  simp only [writeLiteral]
  exact ⟨fun L => ⟨rfl, by decide +kernel⟩, fun L => ⟨rfl, by decide +kernel, by decide +kernel⟩⟩

end GengoDB.QueryParams
