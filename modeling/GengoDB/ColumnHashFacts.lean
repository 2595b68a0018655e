/-
The hash index and compiled code compute the same hash.

A short string has one representation, wherever it lies in memory and whether
it is a constant or not (`ofPtr_eq`, `ofI128_createConstVarLen`), and the hash of
a long one only looks at its bytes. A row then folds to what compiled code
combines (`foldl_dbHashApplyColumn`), column by column. Only strings make it
matter in which order (`foldCell_comm`).
-/
import GengoDB.ColumnHash
import Mathlib.Data.List.Perm.Basic
import Mathlib.Tactic.Ring

namespace GengoDB.Hash

open BitVec Nat

open List VarLen32

open Codec (putLE)

/-! ## Little-endian numbers -/

theorem littleEndian_append (a b : Bytes) :
    littleEndian (a ++ b) = littleEndian a + 256 ^ a.length * littleEndian b := by
  induction a with
  | nil => simp [littleEndian]
  | cons x a ih =>
    rw [List.cons_append, littleEndian, ih, littleEndian, length_cons]
    ring

theorem littleEndian_lt (a : Bytes) : littleEndian a < 256 ^ a.length := by
  induction a with
  | nil => simp [littleEndian]
  | cons x a ih =>
    rw [littleEndian, length_cons]
    omega

theorem littleEndian_divMod (a : Bytes) (n : ℕ) :
    littleEndian a / 256 ^ n = littleEndian (a.drop n) ∧ littleEndian a % 256 ^ n = littleEndian (a.take n) := by
  refine (Nat.div_mod_unique (Nat.pow_pos (by decide))).2 ⟨?_, ?_⟩
  · rcases Nat.lt_or_ge a.length n with h | h
    · simp [take_of_length_le h.le, drop_eq_nil_of_le h.le, littleEndian]
    · have happend := littleEndian_append (a.take n) (a.drop n)
      rwa [take_append_drop, length_take, min_eq_left h, eq_comm] at happend
  · exact (littleEndian_lt _).trans_le (Nat.pow_le_pow_right (by decide) (length_take_le n a))

theorem littleEndian_take (a : Bytes) (n : ℕ) : littleEndian (a.take n) = littleEndian a % 256 ^ n :=
  (littleEndian_divMod a n).2.symm

theorem littleEndian_drop (a : Bytes) (n : ℕ) : littleEndian (a.drop n) = littleEndian a / 256 ^ n :=
  (littleEndian_divMod a n).1.symm

/-! ## Strings in memory -/

section Memory

variable {mem : ℕ → Fin 256} {p len : ℕ}

@[simp] theorem length_readBytes (mem : ℕ → Fin 256) (p len : ℕ) : (readBytes mem p len).length = len := by
  simp [readBytes]

theorem readBytes_add (mem : ℕ → Fin 256) (p m n : ℕ) :
    readBytes mem p (m + n) = readBytes mem p m ++ readBytes mem (p + m) n := by
  simp only [readBytes, range_add, map_append, map_map]
  congr 1
  exact map_congr_left fun i _ => by rw [Function.comp_apply, add_assoc]

theorem take_readBytes {m n : ℕ} (h : m ≤ n) : (readBytes mem p n).take m = readBytes mem p m := by
  obtain ⟨k, rfl⟩ := Nat.exists_eq_add_of_le h
  rw [readBytes_add, take_left' (length_readBytes _ _ _)]

theorem drop_readBytes {m n : ℕ} (h : m ≤ n) : (readBytes mem p n).drop m = readBytes mem (p + m) (n - m) := by
  obtain ⟨k, rfl⟩ := Nat.exists_eq_add_of_le h
  rw [readBytes_add, drop_left' (length_readBytes _ _ _), Nat.add_sub_cancel_left]

theorem toNat_unalignedLoad64 : (unalignedLoad64 mem p).toNat = littleEndian (readBytes mem p 8) := by
  have hlt := littleEndian_lt (readBytes mem p 8)
  rw [length_readBytes] at hlt
  exact (toNat_ofNat _ _).trans (mod_eq_of_lt hlt)

theorem pow_256 (n : ℕ) : 256 ^ n = 2 ^ (n * 8) := by
  rw [Nat.mul_comm, Nat.pow_mul]

/-- The mask keeps the bytes of the string. -/
theorem toNat_and_mask (x : BitVec 64) (h : len < 8) :
    (x &&& ~~~(allOnes 64 <<< (len * 8))).toNat = x.toNat % 256 ^ len := by
  have hmask : ∀ n < 8, (~~~(allOnes 64 <<< (n * 8))).toNat = 2 ^ (n * 8) - 1 := by decide
  rw [toNat_and, hmask len h, and_two_pow_sub_one_eq_mod, pow_256]

theorem toNat_read8PadZero (h : len ≤ 8) : (read8PadZero mem p len).toNat = littleEndian (readBytes mem p len) := by
  unfold read8PadZero
  split
  · next h0 => subst h0; rfl
  · split
    · obtain rfl : len = 8 := by omega
      exact toNat_unalignedLoad64
    · split
      · rw [toNat_and_mask _ (by omega), toNat_unalignedLoad64, ← littleEndian_take, take_readBytes h]
      · next hlen hend =>
        -- the word ends where the string ends
        have hp : 8 ≤ p + len := by
          simp only [cachelineRemains8, decide_eq_true_eq] at hend
          omega
        rw [toNat_ushiftRight, shiftRight_eq_div_pow, toNat_unalignedLoad64,
          show 64 - len * 8 = (8 - len) * 8 by omega, ← pow_256, ← littleEndian_drop, drop_readBytes (by omega),
          show p + len - 8 + (8 - len) = p by omega, show 8 - (8 - len) = len by omega]

theorem unalignedLoad32_eq (h : 4 ≤ len) : unalignedLoad32 mem p = BitVec.ofNat 32 (littleEndian (readBytes mem p len)) := by
  rw [unalignedLoad32, ← take_readBytes h, littleEndian_take]
  exact eq_of_toNat_eq (by rw [toNat_ofNat]; exact mod_mod _ _)

/-- The one representation of a short string. -/
def shortText (bytes : Bytes) : VarLen32 :=
  ⟨BitVec.ofNat 32 bytes.length, BitVec.ofNat 32 (littleEndian bytes), BitVec.ofNat 64 (littleEndian bytes / 2 ^ 32)⟩

theorem ofPtr_eq (mem : ℕ → Fin 256) (p : ℕ) (h : len ≤ 12) : ofPtr mem p len = shortText (readBytes mem p len) := by
  have hlt := littleEndian_lt (readBytes mem p len)
  have hfits : littleEndian (readBytes mem p len) / 2 ^ 32 < 2 ^ 64 := by
    rw [div_lt_iff_lt_mul (by decide)]
    rw [length_readBytes] at hlt
    exact hlt.trans_le ((Nat.pow_le_pow_right (by decide) h).trans (by decide))
  rw [ofPtr, if_neg (by omega), shortText, length_readBytes]
  split
  · -- the last eight bytes overlap the first four
    refine congrArg₂ (mk _) ?_ ?_
    · exact unalignedLoad32_eq (by omega)
    · refine eq_of_toNat_eq ?_
      rw [toNat_ushiftRight, shiftRight_eq_div_pow, toNat_unalignedLoad64, ← pow_256, ← littleEndian_drop,
        drop_readBytes (by omega), toNat_ofNat, mod_eq_of_lt hfits, show 2 ^ 32 = 256 ^ 4 by decide,
        ← littleEndian_drop, drop_readBytes (by omega)]
      congr 2 <;> omega
  · have hread : (read8PadZero mem p len).toNat = littleEndian (readBytes mem p len) := toNat_read8PadZero (by omega)
    refine congrArg₂ (mk _) ?_ ?_
    · exact eq_of_toNat_eq (by rw [toNat_setWidth, hread, toNat_ofNat])
    · refine eq_of_toNat_eq ?_
      rw [toNat_ushiftRight, shiftRight_eq_div_pow, hread, toNat_ofNat, mod_eq_of_lt hfits]

end Memory

/-! ## Constants -/

theorem toNat_asI128 (v : VarLen32) :
    v.asI128.toNat = v.len.toNat + 2 ^ 32 * v.first4.toNat + 2 ^ 64 * v.last8.toNat := by
  have hlen := v.len.isLt
  have hfirst := v.first4.isLt
  rw [asI128, toNat_append, toNat_append, ← shiftLeft_add_eq_or_of_lt hlen,
    ← shiftLeft_add_eq_or_of_lt hfirst, Nat.shiftLeft_eq, Nat.shiftLeft_eq]
  ring

theorem toNat_shiftLeft_or {w k : ℕ} {lo hi : BitVec w} (hlo : lo.toNat < 2 ^ k) (hhi : hi.toNat * 2 ^ k < 2 ^ w) :
    (hi <<< k ||| lo).toNat = lo.toNat + 2 ^ k * hi.toNat := by
  rw [toNat_or, toNat_shiftLeft, Nat.shiftLeft_eq, mod_eq_of_lt hhi, ← Nat.shiftLeft_eq,
    ← shiftLeft_add_eq_or_of_lt hlo, Nat.shiftLeft_eq]
  ring

theorem toNat_createConstVarLen {str : Bytes} (address : ℕ) (h : str.length < 2 ^ 32) :
    (createConstVarLen str address).toNat = str.length + 2 ^ 32 * littleEndian (str.take 4) + 2 ^ 64 *
      ((if str.length ≤ 12 then littleEndian ((str.drop 4).take 8) else address) % 2 ^ 64) := by
  have hfirst : littleEndian (str.take 4) < 2 ^ 32 := by
    rw [littleEndian_take]
    exact mod_lt _ (by decide)
  have hlow : (BitVec.ofNat 64 (littleEndian (str.take 4)) <<< 32 ||| BitVec.ofNat 64 str.length).toNat
      = str.length + 2 ^ 32 * littleEndian (str.take 4) := by
    rw [toNat_shiftLeft_or] <;> simp only [toNat_ofNat] <;> omega
  have htail : (if 4 < str.length then littleEndian ((str.drop 4).take 8) else 0) = littleEndian ((str.drop 4).take 8) := by
    split
    · rfl
    · rw [drop_eq_nil_of_le (by omega)]
      rfl
  rw [createConstVarLen, BitVec.or_comm, toNat_shiftLeft_or (by rw [toNat_setWidth]; omega)
    (by rw [toNat_setWidth]; omega), toNat_setWidth, toNat_setWidth, hlow, htail]
  split <;> rw [toNat_ofNat] <;> omega

theorem ofI128_createConstVarLen {str : Bytes} (address : ℕ) (h : str.length < 2 ^ 32) :
    ofI128 (createConstVarLen str address) = if str.length ≤ 12 then shortText str else
      ⟨BitVec.ofNat 32 str.length, BitVec.ofNat 32 (littleEndian str), BitVec.ofNat 64 address⟩ := by
  have hraw := toNat_createConstVarLen address h
  rw [littleEndian_take, littleEndian_take, littleEndian_drop] at hraw
  split at hraw <;> next hlen =>
    simp only [hlen, ↓reduceIte, ofI128, shortText, mk.injEq, ← toNat_inj, toNat_setWidth, toNat_ushiftRight,
      toNat_ofNat]
    omega

/-! ## The hash of a string -/

theorem toNat_low (w : BitVec 64) : (w &&& 0xffffffff).toNat = w.toNat % 2 ^ 32 :=
  (toNat_and _ _).trans (and_two_pow_sub_one_eq_mod _ 32)

variable (xxHash64 : Bytes → BitVec 64)

/-- The cheap hash is the whole hash exactly for the strings that are hashed
without their bytes. -/
theorem dbHashVarLen32_eq (mem : ℕ → Fin 256) (v : VarLen32) : dbHashVarLen32 xxHash64 mem v
      = if (varLenTryCheapHash v).1 then (varLenTryCheapHash v).2 else hashVarLenData xxHash64 mem v := by
  have hlen : 12#32 < ((v.asI128.setWidth 64 &&& 0xffffffff).setWidth 32)
      ↔ ¬v.asI128.setWidth 64 &&& 0xffffffff < 13 := by
    rw [lt_def, lt_def, toNat_setWidth, toNat_low, mod_mod]
    exact Nat.not_lt.symm
  simp only [dbHashVarLen32, varLenTryCheapHash, decide_eq_true_eq, if_congr hlen rfl rfl, ite_not, hashCombine]

theorem toNat_len (v : VarLen32) : (v.asI128.setWidth 64 &&& 0xffffffff).toNat = v.len.toNat := by
  rw [toNat_low, toNat_setWidth, toNat_asI128]
  omega

theorem varLenTryCheapHash_iff (v : VarLen32) : (varLenTryCheapHash v).1 ↔ v.len.toNat ≤ 12 := by
  rw [varLenTryCheapHash, decide_eq_true_eq, lt_def, toNat_len]
  exact Nat.lt_succ_iff

/-! ## The order of columns -/

theorem getLsbD_append_byte {n : ℕ} (x : BitVec n) (y : BitVec 8) (i : ℕ) :
    (x ++ y).getLsbD i = if i < 8 then y.getLsbD i else x.getLsbD (i - 8) := getLsbD_append

theorem getLsbD_byteSwap (x : BitVec 64) {i : ℕ} (hi : i < 64) :
    (byteSwap x).getLsbD i = x.getLsbD (56 - i / 8 * 8 + i % 8) := by
  have hfirst : ∀ i < 8, (x.setWidth 8).getLsbD i = x.getLsbD i := fun i hi => by simp [hi]
  have hbyte : ∀ k, ∀ i < 8, ((x >>> k).setWidth 8).getLsbD i = x.getLsbD (k + i) := fun k i hi => by simp [hi]
  rw [byteSwap, getLsbD_setWidth, decide_eq_true hi, Bool.true_and, getLsbD_append_byte, getLsbD_append_byte,
    getLsbD_append_byte, getLsbD_append_byte, getLsbD_append_byte, getLsbD_append_byte, getLsbD_append_byte]
  split_ifs
  all_goals first | rw [hbyte _ _ (by omega)] | rw [hfirst _ (by omega)]
  all_goals
    congr 1
    omega

@[simp] theorem byteSwap_byteSwap (x : BitVec 64) : byteSwap (byteSwap x) = x := by
  refine eq_of_getLsbD_eq fun i hi => ?_
  rw [getLsbD_byteSwap _ hi, getLsbD_byteSwap _ (by omega)]
  congr 1
  omega

@[simp] theorem byteSwap_xor (x y : BitVec 64) : byteSwap (x ^^^ y) = byteSwap x ^^^ byteSwap y := by
  refine eq_of_getLsbD_eq fun i hi => ?_
  rw [getLsbD_xor, getLsbD_byteSwap _ hi, getLsbD_byteSwap _ hi, getLsbD_byteSwap _ hi, getLsbD_xor]

/-- The hash of a number reads the same in both byte orders. -/
theorem byteSwap_hash64 (x : BitVec 64) : byteSwap (hash64 x) = hash64 x := by
  rw [hash64, byteSwap_xor, byteSwap_byteSwap, BitVec.xor_comm]

theorem iterate_byteSwap_xor (n : ℕ) (x y : BitVec 64) :
    byteSwap^[n] (x ^^^ y) = byteSwap^[n] x ^^^ byteSwap^[n] y := by
  induction n with
  | zero => rfl
  | succ n ih => rw [Function.iterate_succ_apply', Function.iterate_succ_apply', Function.iterate_succ_apply', ih,
    byteSwap_xor]

/-- Pieces that read the same in both byte orders are only added up. -/
theorem foldl_dbHashFoldPiece {ps : List (BitVec 64)} (h : ∀ p ∈ ps, byteSwap p = p) (acc : BitVec 64) :
    ps.foldl dbHashFoldPiece acc = byteSwap^[ps.length] acc ^^^ ps.foldr (· ^^^ ·) 0 := by
  induction ps generalizing acc with
  | nil => exact xor_zero.symm
  | cons p ps ih =>
    have hp : byteSwap^[ps.length] p = p := Function.iterate_fixed (h p (mem_cons_self ..)) _
    rw [foldl_cons, ih fun q hq => h q (mem_cons_of_mem _ hq), dbHashFoldPiece, iterate_byteSwap_xor, hp,
      foldr_cons, length_cons, Function.iterate_succ_apply, xor_assoc]

/-- The pieces of a cell; a null that is no string has none. -/
theorem foldCell_eq {type : ArrowType} (h : type ≠ .string) (x : Option type.Value) :
    ∃ ps : List (BitVec 64), (∀ p ∈ ps, byteSwap p = p) ∧
      ∀ acc, foldCell xxHash64 type acc x = ps.foldl dbHashFoldPiece acc := by
  cases x with
  | none => exact ⟨[], fun p hp => absurd hp not_mem_nil, fun acc => if_neg h⟩
  | some v =>
    refine ⟨pieces xxHash64 type v, ?_, fun acc => rfl⟩
    cases type with
    | string => exact absurd rfl h
    | decimal128 precision =>
      simp only [pieces]
      split <;> simp [byteSwap_hash64]
    | intervalDayTime =>
      obtain ⟨days, millis⟩ := v
      simp [pieces, byteSwap_hash64]
    | _ =>
      rintro p hp
      obtain rfl := mem_singleton.mp hp
      exact byteSwap_hash64 _

/-- Two columns that hold no strings can be folded in in either order. -/
theorem foldCell_comm {s t : ArrowType} (hs : s ≠ .string) (ht : t ≠ .string)
    (x : Option s.Value) (y : Option t.Value) (acc : BitVec 64) :
    foldCell xxHash64 t (foldCell xxHash64 s acc x) y = foldCell xxHash64 s (foldCell xxHash64 t acc y) x := by
  obtain ⟨ps, hps, hx⟩ := foldCell_eq xxHash64 hs x
  obtain ⟨qs, hqs, hy⟩ := foldCell_eq xxHash64 ht y
  have hboth : ∀ p ∈ ps ++ qs, byteSwap p = p := fun p hp => (mem_append.mp hp).elim (hps p) (hqs p)
  rw [hx, hy, hx, hy, ← foldl_append, ← foldl_append, foldl_dbHashFoldPiece hboth,
    foldl_dbHashFoldPiece fun p hp => hboth p (mem_append.mpr (mem_append.mp hp).symm),
    perm_append_comm.foldr_eq, length_append, length_append,
    add_comm]

section Represented

variable (xxHash64 : Bytes → BitVec 64) {mem : ℕ → Fin 256} {v : VarLen32} {values : List Value}

/-- `v` is the string `bytes`: it was made from an Arrow column, or it is a
constant. -/
inductive VarLen32.Holds (bytes : Bytes) : (ℕ → Fin 256) → VarLen32 → Prop
  | loaded (t : Text) (h : t.bytes = bytes) : Holds bytes t.mem (.ofPtr t.mem t.ptr t.len)
  | constant (mem : ℕ → Fin 256) (address : ℕ) (hlen : bytes.length < 2 ^ 32) (haddress : address < 2 ^ 64)
      (hglobal : 12 < bytes.length → readBytes mem address bytes.length = bytes) :
      Holds bytes mem (.ofI128 (createConstVarLen bytes address))

/-- A short string is `shortText`; a long one points to its bytes. -/
theorem VarLen32.Holds.spec {bytes : Bytes} (h : v.Holds bytes mem) : v.len.toNat = bytes.length ∧
    v.first4 = BitVec.ofNat 32 (littleEndian bytes) ∧
    if bytes.length ≤ 12 then v = shortText bytes else v.data mem = bytes := by
  cases h with
  | loaded t h =>
    subst h
    have hlen : t.bytes.length = t.len := length_readBytes _ _ _
    rcases lt_or_ge 12 t.len with hlong | hshort
    · rw [if_neg (by omega), ofPtr, if_pos hlong, data, toNat_ofNat, toNat_ofNat, mod_eq_of_lt t.len_lt,
        mod_eq_of_lt t.ptr_lt]
      exact ⟨hlen.symm, unalignedLoad32_eq (by omega), rfl⟩
    · rw [if_pos (by omega), ofPtr_eq _ _ hshort]
      exact ⟨(toNat_ofNat _ _).trans (mod_eq_of_lt (by rw [length_readBytes]; omega)), rfl, rfl⟩
  | constant mem address hlen haddress hglobal =>
    rw [ofI128_createConstVarLen address hlen]
    split
    · exact ⟨(toNat_ofNat _ _).trans (mod_eq_of_lt hlen), rfl, rfl⟩
    · rw [data, toNat_ofNat, toNat_ofNat, mod_eq_of_lt hlen, mod_eq_of_lt haddress]
      exact ⟨rfl, rfl, hglobal (by omega)⟩

/-- The hash of a string, from its bytes. -/
def textHash (bytes : Bytes) : BitVec 64 :=
  if bytes.length ≤ 12 then (varLenTryCheapHash (shortText bytes)).2 else xxHash64 bytes

theorem VarLen32.Holds.dbHashVarLen32_eq {bytes : Bytes} (h : v.Holds bytes mem) :
    dbHashVarLen32 xxHash64 mem v = textHash xxHash64 bytes := by
  obtain ⟨hlen, -, hv⟩ := h.spec
  rw [Hash.dbHashVarLen32_eq, if_congr (varLenTryCheapHash_iff v) rfl rfl, hlen, textHash]
  split <;> next hshort =>
    simp only [hshort, ↓reduceIte] at hv
    simp only [hashVarLenData, hv]

/-! ## Values -/

/-- `v` is the value `x` of a column in compiled code: loaded from the column,
the same string from elsewhere, or either as a nullable value. -/
inductive Represents : (type : ArrowType) → type.Value → Value → Prop
  | loaded (type : ArrowType) (x : type.Value) : Represents type x (loadArrow type x)
  | text (t : Text) {mem : ℕ → Fin 256} {v : VarLen32} (h : v.Holds t.bytes mem) : Represents .string t (.varLen mem v)
  | nullable {type : ArrowType} {x : type.Value} {v : Value} (h : Represents type x v) :
      Represents type x (.nullable false v)

theorem combineHashes_eq (hash : BitVec 64) (total : Option (BitVec 64)) :
    combineHashes hash total = dbHashFoldPiece (total.getD 0) hash := by
  cases total with
  | none =>
    exact zero_xor.symm
  | some total => exact BitVec.xor_comm _ _

theorem hashImpl_varLen {t : Text} (h : v.Holds t.bytes mem) (total : Option (BitVec 64)) :
    hashImpl xxHash64 (.varLen mem v) total
      = some ((pieces xxHash64 .string t).foldl dbHashFoldPiece (total.getD 0)) := by
  have hloaded := (VarLen32.Holds.loaded t rfl).dbHashVarLen32_eq xxHash64
  have hother := h.dbHashVarLen32_eq xxHash64
  rw [Hash.dbHashVarLen32_eq] at hother
  simp only [hashImpl, pieces, foldl_cons, foldl_nil, combineHashes_eq]
  rw [hloaded, hother]

/-- The upper half of a number, shifted down with or without its sign. -/
theorem signExtend_ushiftRight (x : BitVec 128) : signExtend 64 (x >>> 64) = setWidth 64 (sshiftRight x 64) := by
  rw [signExtend_eq_setWidth_of_le _ (by decide)]
  ext i hi
  have hlow : 64 + i < 128 := by omega
  simp [getLsbD_sshiftRight, hlow, show ¬128 ≤ i by omega]

theorem hashImpl_wide (x : BitVec 128) (total : Option (BitVec 64)) : hashImpl xxHash64 (.int 128 x) total
    = some ([hash64 (setWidth 64 (sshiftRight x 64)), hash64 (setWidth 64 x)].foldl dbHashFoldPiece
        (total.getD 0)) := by
  simp [hashImpl, combineHashes_eq, hashInteger, signExtend_ushiftRight]

theorem hashImpl_loadArrow (type : ArrowType) (x : type.Value) (total : Option (BitVec 64)) :
    hashImpl xxHash64 (loadArrow type x) total
      = some ((pieces xxHash64 type x).foldl dbHashFoldPiece (total.getD 0)) := by
  cases type with
  | string => exact hashImpl_varLen xxHash64 (.loaded x rfl) total
  | bool => cases x <;> simp [loadArrow, hashImpl, pieces, combineHashes_eq, hashInteger]
  | int width =>
    have hbits : width.bits ≠ 128 := by cases width <;> decide
    simp [loadArrow, hashImpl, if_neg hbits, pieces, combineHashes_eq, hashInteger]
  | double =>
    have hsame : signExtend 64 x = x := signExtend_eq x
    simp [loadArrow, hashImpl, pieces, combineHashes_eq, hashInteger, hsame]
  | decimal128 precision =>
    by_cases hp : precision < 19
    · simp [loadArrow, hashImpl, pieces, combineHashes_eq, hashInteger, hp, le_of_lt_succ hp]
    · have hpieces : pieces xxHash64 (.decimal128 precision) x
          = [hash64 (setWidth 64 (sshiftRight x 64)), hash64 (setWidth 64 x)] :=
        if_neg (by omega)
      rw [loadArrow, if_neg hp, hpieces]
      exact hashImpl_wide xxHash64 x total
  | intervalDayTime =>
    obtain ⟨days, millis⟩ := x
    simp [loadArrow, hashImpl, pieces, combineHashes_eq, hashInteger]
  | _ => simp [loadArrow, hashImpl, pieces, combineHashes_eq, hashInteger]

theorem hashImpl_represents {type : ArrowType} {x : type.Value} {v : Value} (h : Represents type x v)
    (total : Option (BitVec 64)) :
    hashImpl xxHash64 v total = some ((pieces xxHash64 type x).foldl dbHashFoldPiece (total.getD 0)) := by
  induction h with
  | loaded type x => exact hashImpl_loadArrow xxHash64 type x total
  | text t h => exact hashImpl_varLen xxHash64 h total
  | nullable _ ih => rw [hashImpl, if_neg (by decide), ih]

/-! ## Rows -/

/-- The values of a row in compiled code. -/
def RowValues (row : ℕ) (columns : List Column) (values : List Value) : Prop :=
  List.Forall₂ (fun column v => ∃ x, column.values[row]? = some (some x) ∧ Represents column.type x v) columns values

variable {columns : List Column}

/-- Folding the columns into the hashes of all rows hashes each row on its own. -/
theorem foldl_dbHashApplyColumn {row : ℕ} (h : RowValues row columns values)
    (running : List (BitVec 64)) (total : Option (BitVec 64)) (hrow : running[row]? = some (total.getD 0)) :
    (columns.foldl (dbHashApplyColumn xxHash64) running)[row]? = some ((hashAll xxHash64 values total).getD 0) := by
  induction h generalizing running total with
  | nil => exact hrow
  | @cons column v columns values hcell _ ih =>
    obtain ⟨x, hx, hv⟩ := hcell
    refine ih _ _ ?_
    rw [dbHashApplyColumn, getElem?_zipWith, hrow, hx, hashImpl_represents xxHash64 hv]
    rfl

theorem isSome_hashAll {row : ℕ} (h : RowValues row columns values) :
    ∀ total : Option (BitVec 64), columns ≠ [] ∨ total.isSome → (hashAll xxHash64 values total).isSome := by
  induction h with
  | nil => exact fun total hstart => hstart.resolve_left (fun hne => hne rfl)
  | cons hcell _ ih =>
    obtain ⟨x, -, hv⟩ := hcell
    intro total _
    rw [hashAll, hashImpl_represents xxHash64 hv]
    exact ih _ (.inr rfl)

/-- The hash a hash index stores for a row is the one compiled code computes for
the values of the row, as operands of `db.hash` or as a tuple. -/
theorem totalHash_eq_compiledHash {numRows row : ℕ} {columns : List Column} {values : List Value} (hrow : row < numRows)
    (h : RowValues row columns values) : (columns ≠ [] → (compiledHash xxHash64 values).isSome)
      ∧ compiledHash xxHash64 [.tuple values] = compiledHash xxHash64 values
      ∧ ∀ hash, compiledHash xxHash64 values = some hash → (totalHash xxHash64 numRows columns)[row]? = some hash := by
  refine ⟨fun hcolumns => isSome_hashAll xxHash64 h none (.inl hcolumns), ?_, fun hash hhash => ?_⟩
  · rw [compiledHash, hashAll, hashAll, hashImpl, compiledHash]
  · have hzero : (List.replicate numRows 0)[row]? = some ((none : Option (BitVec 64)).getD 0) :=
      getElem?_replicate_of_lt hrow
    rw [totalHash, foldl_dbHashApplyColumn xxHash64 h _ none hzero]
    rw [compiledHash] at hhash
    rw [hhash, Option.getD_some]

end Represented

/-! ## Equality of strings -/

section Equality

variable {mem : ℕ → Fin 256} {x y : Bytes} {v a b : VarLen32}

/-- The 128 bits, by their words. -/
theorem words_asI128 (a b : VarLen32) :
    (a.asI128.setWidth 64 = b.asI128.setWidth 64 ↔ a.len = b.len ∧ a.first4 = b.first4) ∧
    ((a.asI128 >>> 64).setWidth 64 = (b.asI128 >>> 64).setWidth 64 ∧ a.asI128.setWidth 64 = b.asI128.setWidth 64 ↔
      a = b) ∧ (a.asI128 = b.asI128 ↔ a = b) := by
  obtain ⟨la, fa, ta⟩ := a
  obtain ⟨lb, fb, tb⟩ := b
  simp only [← toNat_inj, toNat_setWidth, toNat_ushiftRight, shiftRight_eq_div_pow, toNat_asI128, mk.injEq]
  omega

theorem putLE_littleEndian (a : Bytes) : putLE a.length (littleEndian a) = a := by
  induction a with
  | nil => rfl
  | cons b a ih =>
    have hb := b.isLt
    rw [littleEndian, length_cons, putLE, show (b.val + 256 * littleEndian a) / 256 = littleEndian a by omega, ih]
    exact congrArg (· :: a) (Fin.ext (by simp only; omega))

theorem VarLen32.Holds.str_eq (h : v.Holds x mem) : v.str mem = x := by
  obtain ⟨hlen, -, hv⟩ := h.spec
  rw [str, hlen]
  split at hv
  · next hshort =>
    have hlt := littleEndian_lt x
    have hpow : 256 ^ x.length ≤ 2 ^ 96 := (Nat.pow_le_pow_right (by decide) hshort).trans (by decide)
    have hbits : v.asI128.toNat / 2 ^ 32 = littleEndian x := by
      rw [toNat_asI128, hlen, hv, shortText, toNat_ofNat, toNat_ofNat]
      omega
    rw [if_pos hshort, hbits, putLE_littleEndian]
  · next hlong => rw [if_neg hlong, hv]

theorem stringEq_eq {small : Bool} (ha : a.Holds x mem) (hb : b.Holds y mem)
    (hsmall : small → x.length ≤ 12 ∨ y.length ≤ 12) : stringEq small mem a b = some (decide (x = y)) := by
  obtain ⟨hlenA, hfirstA, hshortA⟩ := ha.spec
  obtain ⟨hlenB, hfirstB, hshortB⟩ := hb.spec
  have hne (h : a = b) : x = y := by rw [← ha.str_eq, ← hb.str_eq, h]
  have heq (h : x = y) (hshort : x.length ≤ 12) : a = b := by
    subst h
    rw [if_pos hshort] at hshortA hshortB
    rw [hshortA, hshortB]
  obtain ⟨hfirst, hwords, hall⟩ := words_asI128 a b
  unfold stringEq
  split
  · next hs =>
    refine congrArg some (Bool.eq_iff_iff.2 ?_)
    rw [beq_iff_eq, decide_eq_true_iff, hall]
    exact ⟨hne, fun h => heq h ((hsmall hs).elim id (h ▸ id))⟩
  · split
    · next hd =>
      rw [varLenCmp, Bool.and_eq_true, beq_iff_eq, hfirst] at hd
      rw [compareEq, if_pos hd.2.1, ha.str_eq, hb.str_eq, Bool.beq_eq_decide_eq]
    · next hd =>
      -- equal long strings have equal first words, so they were compared above
      rw [varLenCmp, Bool.and_eq_true, beq_iff_eq, hfirst, decide_eq_true_iff, lt_def, toNat_len, hlenA] at hd
      refine congrArg some (Bool.eq_iff_iff.2 ?_)
      rw [varLenCmp, Bool.and_eq_true, beq_iff_eq, beq_iff_eq, hwords, decide_eq_true_iff]
      refine ⟨hne, fun h => heq h (not_lt.1 fun hlong => hd ⟨hlong, ?_, ?_⟩)⟩
      · rw [← toNat_inj, hlenA, hlenB, h]
      · rw [hfirstA, hfirstB, h]

theorem length_str (mem : ℕ → Fin 256) (v : VarLen32) : (v.str mem).length = v.len.toNat := by
  unfold str
  split <;> simp only [Codec.length_putLE, data, length_readBytes]

/-- A constant of 2^32 bytes has no room for its length. -/
theorem str_constant_ne (hlong : 2 ^ 32 ≤ x.length) : ∃ mem, readBytes mem 0 x.length = x ∧
    (ofI128 (createConstVarLen x 0)).str mem ≠ x := by
  refine ⟨fun i => x.getD i 0, List.ext_getElem (by simp) fun i h1 h2 => by simp [readBytes, h2], fun h => ?_⟩
  have hlen := length_str (fun i => x.getD i 0) (ofI128 (createConstVarLen x 0))
  rw [h] at hlen
  exact not_lt.2 hlong (hlen ▸ isLt _)

/-- **A string** of fewer than 2^32 bytes is read back from its constant, no
longer one is. Loaded or constant it has one representation up to the address
of a long string, and compiled code compares it by its bytes. -/
theorem varLen32_iff (x : Bytes) :
    ((∀ mem address, address < 2 ^ 64 → (12 < x.length → readBytes mem address x.length = x) →
      (ofI128 (createConstVarLen x address)).str mem = x) ↔ x.length < 2 ^ 32) ∧
    (∀ mem v, v.Holds x mem → v.str mem = x ∧ v.len = BitVec.ofNat 32 x.length ∧
      v.first4 = BitVec.ofNat 32 (littleEndian x) ∧ (x.length ≤ 12 → v = shortText x)) ∧
    ∀ y mem a b (small : Bool), a.Holds x mem → b.Holds y mem → (small → x.length ≤ 12 ∨ y.length ≤ 12) →
      stringEq small mem a b = some (decide (x = y)) := by
  refine ⟨⟨fun h => ?_, fun hlen mem address haddress hglobal => ?_⟩, fun mem v hv => ?_, fun y mem a b small => stringEq_eq⟩
  · by_contra hlong
    obtain ⟨mem, hmem, hne⟩ := str_constant_ne (not_lt.1 hlong)
    exact hne (h mem 0 (by decide) fun _ => hmem)
  · exact (Holds.constant mem address hlen haddress hglobal).str_eq
  · obtain ⟨hlen, hfirst, hshort⟩ := hv.spec
    refine ⟨hv.str_eq, ?_, hfirst, fun h => by rwa [if_pos h] at hshort⟩
    rw [← hlen, BitVec.ofNat_toNat, setWidth_eq]

theorem varLen32_long : ∃ mem, readBytes mem 0 (2 ^ 32) = List.replicate (2 ^ 32) 0 ∧
    (ofI128 (createConstVarLen (List.replicate (2 ^ 32) 0) 0)).str mem ≠ List.replicate (2 ^ 32) 0 := by
  have h := str_constant_ne (x := List.replicate (2 ^ 32) 0) (by rw [length_replicate])
  rwa [length_replicate] at h

end Equality

/-- The string `ABC…` of a length, at an address. -/
def alphabet (ptr len : ℕ) (hptr : ptr < 2 ^ 64) (hlen : len < 2 ^ 32) : Text where
  mem i := Fin.ofNat 256 (65 + i - ptr)
  ptr := ptr
  len := len
  ptr_lt := hptr
  len_lt := hlen

def sampleText : Text := alphabet 60 11 (by decide) (by decide)

def sampleColumns : List Column :=
  [⟨.int .w32, [some (5 : BitVec 32), some (-7 : BitVec 32)]⟩, ⟨.string, [none, some sampleText]⟩,
    ⟨.decimal128 20, [some (1 : BitVec 128), some (-3 : BitVec 128)]⟩]

def sampleValues : List Value :=
  [.int 32 (-7), .varLen (fun _ => 0) (.ofI128 (createConstVarLen sampleText.bytes 0)), .nullable false (.int 128 (-3))]

theorem sampleValues_row : RowValues 1 sampleColumns sampleValues := by
  have htext : (ofI128 (createConstVarLen sampleText.bytes 0)).Holds sampleText.bytes fun _ => 0 :=
    .constant _ 0 (by decide) (by decide) (fun h => absurd h (by decide))
  refine .cons ⟨(-7 : BitVec 32), rfl, .loaded (.int .w32) _⟩ (.cons ⟨sampleText, rfl, .text _ htext⟩ (.cons ?_ .nil))
  exact ⟨(-3 : BitVec 128), rfl, .nullable (.loaded (.decimal128 20) _)⟩

/-- A row of an integer, a string that compiled code has as a constant, and a
wide decimal. -/
theorem totalHash_eq_compiledHash_row :
    (compiledHash (fun _ => 0) sampleValues).isSome ∧ ∀ hash, compiledHash (fun _ => 0) sampleValues = some hash →
      (totalHash (fun _ => 0) 2 sampleColumns)[1]? = some hash := by
  have h := totalHash_eq_compiledHash (fun _ => 0) (show 1 < 2 by decide) sampleValues_row
  exact ⟨h.1 (cons_ne_nil _ _), h.2.2⟩

end GengoDB.Hash
