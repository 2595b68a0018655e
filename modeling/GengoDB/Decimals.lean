/-
Decimals as integers with a scale: rounding at run time
(`runtime/DecimalRuntime.cpp`), and the multiplication and division that
`DBToStd` lowers to (`compiler/Conversion/DBToStd/LowerToStd.cpp`), in words of
64 or 128 bits.
-/
import GengoDB.Codec
import Mathlib.Tactic.Linarith
import Mathlib.Tactic.Ring

namespace GengoDB.Decimals

open Int

/-! ## Rounding -/

def powersOfTen : List ℤ := (List.range 19).map (10 ^ ·)

/-- The quotient, and one more away from zero if more than half is left. -/
def roundedQuotient (value shift : ℤ) : ℤ :=
  let divided := value.tdiv shift
  let remainder := value.tmod shift
  if value > 0 then divided + (if remainder > shift.tdiv 2 then 1 else 0)
  else divided - (if -remainder > shift.tdiv 2 then 1 else 0)

/-- `DecimalRuntime::round`; `none` is a read past the end of the table. -/
def round (value digits scale : ℤ) : Option ℤ :=
  let roundBy := scale - digits
  if digits ≥ scale then some value
  else powersOfTen[roundBy.toNat]?.map fun shift => (roundedQuotient value shift * shift).bmod (2 ^ 128)

def Fits (w : ℕ) (v : ℤ) : Prop := -2 ^ (w - 1) ≤ v ∧ v < 2 ^ (w - 1)

/-- `r` is the multiple of `unit` nearest to `v`, the one away from zero on a
tie. An integer is a multiple of every negative power of ten, as of `10 ^ 0`. -/
structure Nearest (unit v r : ℤ) : Prop where
  dvd : unit ∣ r
  close : 2 * (v - r).natAbs ≤ unit
  away : 2 * (v - r).natAbs = unit → v.natAbs ≤ r.natAbs

theorem bmod_of_fits {v : ℤ} (h : Fits 128 v) : v.bmod (2 ^ 128) = v := by
  obtain ⟨hlo, hhi⟩ := h
  exact bmod_eq_of_le (by norm_num at *; omega) (by norm_num at *; omega)

theorem eq_of_bmod_eq {x r : ℤ} (h : x.bmod (2 ^ 128) = r) (hnear : (r - x).natAbs < 2 ^ 128) : x = r := by
  have hdvd := dvd_bmod_sub_self (x := x) (m := 2 ^ 128)
  rw [h] at hdvd
  omega

/-- A quotient and what is left have the sign of the value. -/
theorem tdiv_tmod_sign {v u : ℤ} (hu : 0 < u) : u * v.tdiv u + v.tmod u = v ∧ (v.tmod u).natAbs < u ∧
      (0 ≤ v → 0 ≤ v.tdiv u ∧ 0 ≤ v.tmod u) ∧ (v ≤ 0 → v.tdiv u ≤ 0 ∧ v.tmod u ≤ 0) := by
  refine ⟨Int.mul_tdiv_add_tmod v u, ?_, fun hv => ⟨Int.tdiv_nonneg hv hu.le, Int.tmod_nonneg u hv⟩, fun hv => ?_⟩
  · have hlt := tmod_lt_of_pos v hu
    have hgt := lt_tmod_of_pos v hu
    omega
  · have hdiv := Int.tdiv_nonneg (Int.neg_nonneg_of_nonpos hv) hu.le
    have hmod := tmod_nonneg u (neg_nonneg_of_nonpos hv)
    rw [Int.neg_tdiv] at hdiv
    rw [neg_tmod] at hmod
    exact ⟨by omega, by omega⟩

/-- A nearest multiple is next to the quotient. `roundedQuotient` takes it but
on a tie. -/
theorem roundedQuotient_eq_iff {h v k : ℤ} (hh : 0 < h) (hn : Nearest (2 * h) v (2 * h * k)) :
    (roundedQuotient v (2 * h) = k ↔ 2 * (v - 2 * h * k).natAbs ≠ 2 * h) ∧
      (roundedQuotient v (2 * h) - k).natAbs ≤ 1 := by
  obtain ⟨hdiv, hlt, hpos, hneg⟩ := tdiv_tmod_sign (v := v) (by omega : 0 < 2 * h)
  have hhalf : (2 * h).tdiv 2 = h := mul_tdiv_cancel_left h (by decide)
  have hclose := hn.close
  have haway := hn.away
  unfold roundedQuotient
  simp only [hhalf]
  generalize v.tdiv (2 * h) = q at *
  generalize v.tmod (2 * h) = m at *
  obtain ⟨d, rfl⟩ : ∃ d, q = k + d := ⟨q - k, by omega⟩
  rw [mul_add] at hdiv
  have hk : 0 ≤ k → 0 ≤ 2 * h * k := fun hk => by positivity
  have hk' : k ≤ 0 → 2 * h * k ≤ 0 := mul_nonpos_of_nonneg_of_nonpos (by omega)
  have hd : d = -1 ∨ d = 0 ∨ d = 1 := by
    have hlow : -2 < d := by nlinarith [(by omega : -3 * h < 2 * h * d)]
    have hhigh : d < 2 := by nlinarith [(by omega : 2 * h * d < 3 * h)]
    omega
  rcases hd with rfl | rfl | rfl
  · -- The nearest multiple is next to the quotient, away from zero.
    rw [if_pos (by omega : v > 0)]
    split
    · exact ⟨iff_of_true (by omega) (by omega), by omega⟩
    · exact ⟨iff_of_false (by omega) (by omega), by omega⟩
  · rw [if_neg (by omega : ¬ m > h), if_neg (by omega : ¬ -m > h)]
    split <;> exact ⟨iff_of_true (by omega) (by omega), by omega⟩
  · rw [if_neg (by omega : ¬ v > 0)]
    split
    · exact ⟨iff_of_true (by omega) (by omega), by omega⟩
    · exact ⟨iff_of_false (by omega) (by omega), by omega⟩

/-- **Rounding** gives the nearest multiple just if the shift is in the table
and there is no tie: a tie is rounded towards zero. -/
theorem round_nearest_iff {value digits scale r : ℤ} (hn : Nearest (10 ^ (scale - digits).toNat) value r)
    (hfits : Fits 128 r) : round value digits scale = some r ↔
      scale - digits ≤ 18 ∧ 2 * (value - r).natAbs ≠ (10 : ℤ) ^ (scale - digits).toNat := by
  unfold round
  dsimp only
  split
  · have hclose := hn.close
    rw [toNat_of_nonpos (by omega), pow_zero] at hclose ⊢
    rw [Option.some.injEq]
    omega
  next hlt =>
  obtain ⟨e, he⟩ : ∃ e : ℕ, (scale - digits).toNat = e + 1 := ⟨(scale - digits).toNat - 1, by omega⟩
  have hle : scale - digits ≤ 18 ↔ e < 18 := by omega
  have hunit : (10 : ℤ) ^ (e + 1) = 2 * (5 * 10 ^ e) := by ring
  rw [he] at hn ⊢
  rw [hle]
  by_cases htable : e < 18
  · have hpower : powersOfTen[e + 1]? = some (2 * (5 * 10 ^ e)) := by
      rw [powersOfTen, List.getElem?_map, List.getElem?_range (by omega), Option.map_some, hunit]
    rw [hunit] at hn ⊢
    obtain ⟨k, rfl⟩ := hn.dvd
    obtain ⟨hiff, hnext⟩ := roundedQuotient_eq_iff (by positivity) hn
    rw [hpower, Option.map_some, Option.some.injEq, and_iff_right htable, ← hiff, mul_comm (roundedQuotient _ _)]
    refine ⟨fun heq => ?_, fun heq => by rw [heq, bmod_of_fits hfits]⟩
    -- Neighbours are less than the modulus apart.
    have hsmall : (2 * (5 * 10 ^ e) * (k - roundedQuotient value (2 * (5 * 10 ^ e)))).natAbs < 2 ^ 128 := by
      rw [natAbs_mul]
      have hunit : (2 * (5 * (10 : ℤ) ^ e)).natAbs ≤ 10 ^ 18 := by
        rw [← hunit, natAbs_pow]
        exact Nat.pow_le_pow_right (by decide) (by omega)
      calc (2 * (5 * (10 : ℤ) ^ e)).natAbs * (k - roundedQuotient value (2 * (5 * 10 ^ e))).natAbs
          ≤ 10 ^ 18 * 1 := Nat.mul_le_mul hunit (by omega)
        _ < 2 ^ 128 := by norm_num
    exact mul_left_cancel₀ (by positivity) (eq_of_bmod_eq heq (by rwa [← mul_sub]))
  · have hnone : powersOfTen[e + 1]? = none := by
      rw [powersOfTen, List.getElem?_eq_none (by simp; omega)]
    simp [hnone, htable]

theorem round_nearest_down : round 14 0 1 = some 10 :=
  (round_nearest_iff (r := 10) ⟨by decide, by decide, by decide⟩ ⟨by decide, by decide⟩).2 ⟨by decide, by decide⟩

/-- 0.5 is rounded to 0 and not to 1, and a shift of 19 digits is not in the
table. -/
theorem round_half : round 5 0 1 = some 0 ∧ Nearest 10 5 10 ∧ round 0 (-19) 0 = none :=
  ⟨by decide, ⟨by decide, by decide, by decide⟩, by decide⟩

/-! ## Multiplication and division -/

structure DecimalType where
  p : ℕ
  s : ℕ
  le : s ≤ p
  le_max : p ≤ 38

/-- `getAdaptedDecimalTypeAfterMulDiv`: precision and scale. -/
def adapted (precision scale : ℕ) : ℕ × ℕ :=
  let beforeComma := precision - scale
  if beforeComma > 32 ∧ scale > 6 then (38, 6)
  else if beforeComma > 32 ∧ scale ≤ 6 then (38, scale)
  else (min precision 38, min scale (38 - beforeComma))

variable (a b : DecimalType) (x y : ℤ)

/-- `inferMulReturnType`, `inferDivReturnType`. -/
def mulType : ℕ × ℕ := adapted (a.p + b.p) (a.s + b.s)
def divType : ℕ × ℕ := adapted (a.p - a.s + b.s + max 6 (a.s + b.p)) (max 6 (a.s + b.p))

/-- The bits of the word a decimal of this precision is lowered to. -/
def width (precision : ℕ) : ℕ := if precision < 19 then 64 else 128

/-- `arrow::Decimal128`: the multipliers of its table are powers of ten; what
is read behind the table is not known. -/
structure Decimal128 where
  getScaleMultiplier : ℤ → ℤ
  getScaleMultiplier_eq : ∀ scale : ℕ, scale ≤ 38 → getScaleMultiplier scale = 10 ^ scale

variable (arrow : Decimal128)

/-- `getDecimalScaleMultiplierConstant`. -/
def scaleMultiplierConstant (precision : ℕ) (scale : ℤ) : ℤ :=
  (arrow.getScaleMultiplier scale).bmod (2 ^ width precision)

/-- `DecimalMulOpLowering`. -/
def mul : ℤ :=
  let (precision, scale) := mulType a b
  let result := (x * y).bmod (2 ^ width precision)
  if scale < a.s + b.s then result.tdiv (scaleMultiplierConstant arrow precision (a.s + b.s - scale)) else result

/-- `DecimalOpScaledLowering` of a division. -/
def div : ℤ :=
  let (precision, scale) := divType a b
  ((x * scaleMultiplierConstant arrow precision (scale + b.s - a.s)).bmod (2 ^ width precision)).tdiv y

/-- The exponents of the two scalings. -/
def mulExponent : ℕ := a.s + b.s - (mulType a b).2
def divExponent : ℕ := (divType a b).2 + b.s - a.s

variable {a b x y}

theorem mulType_spec : (mulType a b).2 ≤ a.s + b.s ∧ mulExponent a b ≤ 38 ∧
    ((mulType a b).1 < 19 → a.p + b.p < 19) := by
  have ha := a.le
  have hb := b.le
  have ha' := a.le_max
  have hb' := b.le_max
  unfold mulExponent mulType adapted
  dsimp only
  split_ifs <;> dsimp only <;> omega

theorem mulType_narrow (h : a.p + b.p < 19) : (mulType a b).2 = a.s + b.s := by
  have ha := a.le
  have hb := b.le
  unfold mulType adapted
  dsimp only
  split_ifs <;> dsimp only <;> omega

theorem fits_pow {e : ℕ} (h : e ≤ 38) : Fits 128 (10 ^ e) := by
  have hle : (10 : ℤ) ^ e ≤ 10 ^ 38 := pow_le_pow_right₀ (by decide) h
  exact ⟨(by decide : -2 ^ 127 ≤ (0 : ℤ)).trans (by positivity), hle.trans_lt (by decide)⟩

theorem divType_spec : a.s ≤ (divType a b).2 + b.s ∧ ((divType a b).1 < 19 → a.p + divExponent a b < 19) := by
  have ha := a.le
  have ha' := a.le_max
  unfold divExponent divType adapted
  dsimp only
  split_ifs <;> dsimp only <;> omega

/-- What a word loses shows in every quotient by a decimal. -/
theorem tdiv_bmod_eq_iff {x d : ℤ} (hd : d ≠ 0) (hle : d.natAbs ≤ 10 ^ 38) :
    (x.bmod (2 ^ 128)).tdiv d = x.tdiv d ↔ Fits 128 x := by
  refine ⟨fun heq => ?_, fun hfits => by rw [bmod_of_fits hfits]⟩
  have hx := mul_tdiv_add_tmod x d
  have hw := mul_tdiv_add_tmod (x.bmod (2 ^ 128)) d
  have hr (v : ℤ) : (v.tmod d).natAbs < d.natAbs := by
    rw [natAbs_tmod]
    exact Nat.mod_lt _ (natAbs_pos.2 hd)
  have hr₁ := hr x
  have hr₂ := hr (x.bmod (2 ^ 128))
  rw [heq] at hw
  have hnear : (x.bmod (2 ^ 128) - x).natAbs < 2 ^ 128 := by
    generalize x.bmod (2 ^ 128) = w at *
    omega
  rw [eq_of_bmod_eq rfl hnear]
  exact ⟨le_bmod (by decide), bmod_lt (by decide)⟩

/-- The same in the word of a precision, if a narrow one has room. -/
theorem tdiv_width_eq_iff {v d : ℤ} {n precision : ℕ} (hv : v.natAbs < 10 ^ n) (hn : precision < 19 → n < 19)
    (hd : d ≠ 0) (hle : d.natAbs ≤ 10 ^ 38) : (v.bmod (2 ^ width precision)).tdiv d = v.tdiv d ↔ Fits 128 v := by
  unfold width
  split
  · next hp =>
    have hsmall : v.natAbs < 10 ^ 18 := hv.trans_le (Nat.pow_le_pow_right (by decide) (Nat.le_of_lt_succ (hn hp)))
    have hword : v.bmod (2 ^ 64) = v := bmod_eq_of_le (by norm_num at *; omega) (by norm_num at *; omega)
    rw [hword]
    exact iff_of_true rfl (by unfold Fits; norm_num at *; omega)
  · exact tdiv_bmod_eq_iff hd hle

theorem mul_eq : mul a b x y arrow = ((x * y).bmod (2 ^ width (mulType a b).1)).tdiv (10 ^ mulExponent a b) := by
  obtain ⟨hle, hmax, hnarrow⟩ := mulType_spec (a := a) (b := b)
  unfold mul
  dsimp only
  split
  · next hscale =>
    have hexp : ((a.s : ℤ) + b.s - ((mulType a b).2 : ℕ)) = mulExponent a b := by
      unfold mulExponent
      omega
    have hwide : width (mulType a b).1 = 128 := if_neg fun hp => by
      have := mulType_narrow (hnarrow hp)
      omega
    rw [hexp, scaleMultiplierConstant, arrow.getScaleMultiplier_eq _ hmax, hwide, bmod_of_fits (fits_pow hmax)]
  · have hexp : mulExponent a b = 0 := by
      unfold mulExponent
      omega
    rw [hexp, pow_zero, Int.tdiv_one]

theorem div_eq : div a b x y arrow =
    ((x * arrow.getScaleMultiplier (divExponent a b)).bmod (2 ^ width (divType a b).1)).tdiv y := by
  have hle := (divType_spec (a := a) (b := b)).1
  have hexp : (((divType a b).2 : ℕ) : ℤ) + b.s - a.s = divExponent a b := by
    unfold divExponent
    omega
  unfold div
  dsimp only
  rw [hexp, scaleMultiplierConstant, Int.mul_bmod_bmod]

/-- A table that has nothing but zeros behind its end. -/
instance : Inhabited Decimal128 where
  default.getScaleMultiplier scale := if scale ≤ 38 then 10 ^ scale.toNat else 0
  default.getScaleMultiplier_eq scale h := by
    rw [if_pos (by omega), toNat_natCast]

/-- **Decimal products and quotients** are exact, truncated to the inferred
scale, just if the value before the division fits in 128 bits, and for a
quotient of anything but zero the multiplier is in its table; no exponent is
negative. -/
theorem mulDiv_exact_iff (hx : x.natAbs < 10 ^ a.p) (hy : y.natAbs < 10 ^ b.p) : ((mulType a b).2 ≤ a.s + b.s ∧
      ∀ arrow, mul a b x y arrow = (x * y).tdiv (10 ^ mulExponent a b) ↔ Fits 128 (x * y)) ∧
    (a.s ≤ (divType a b).2 + b.s ∧ (y ≠ 0 → ((∀ arrow, div a b x y arrow = (x * 10 ^ divExponent a b).tdiv y) ↔
        x = 0 ∨ divExponent a b ≤ 38 ∧ Fits 128 (x * 10 ^ divExponent a b)))) := by
  obtain ⟨hle, hmax, hnarrow⟩ := mulType_spec (a := a) (b := b)
  obtain ⟨hle', hnarrow'⟩ := divType_spec (a := a) (b := b)
  have hy38 : y.natAbs < 10 ^ 38 := hy.trans_le (Nat.pow_le_pow_right (by decide) b.le_max)
  refine ⟨⟨hle, fun arrow => ?_⟩, hle', fun hy0 => ?_⟩
  · rw [mul_eq]
    refine tdiv_width_eq_iff (n := a.p + b.p) ?_ hnarrow (by positivity) ?_
    · rw [natAbs_mul, pow_add]
      exact Nat.mul_lt_mul'' hx hy
    · exact Nat.pow_le_pow_right (by decide) hmax
  · simp only [div_eq]
    by_cases hexp : divExponent a b ≤ 38
    · have hquot : ((x * 10 ^ divExponent a b).bmod (2 ^ width (divType a b).1)).tdiv y =
          (x * 10 ^ divExponent a b).tdiv y ↔ Fits 128 (x * 10 ^ divExponent a b) := by
        refine tdiv_width_eq_iff (n := a.p + divExponent a b) ?_ hnarrow' hy0 hy38.le
        rw [natAbs_mul, natAbs_pow, pow_add]
        exact Nat.mul_lt_mul_of_pos_right hx (by positivity)
      have hzero : x = 0 → Fits 128 (x * 10 ^ divExponent a b) := by
        rintro rfl
        rw [zero_mul]
        exact ⟨by decide, by decide⟩
      simp only [Decimal128.getScaleMultiplier_eq _ _ hexp, hquot, forall_const, hexp, true_and,
        or_iff_right_of_imp hzero]
    · refine ⟨fun hall => .inl ?_, fun h => ?_⟩
      · -- with nothing behind the table the quotient is zero, but the dividend outgrows every divisor
        have hlib := congrArg natAbs (hall default)
        have hnone : (default : Decimal128).getScaleMultiplier (divExponent a b) = 0 := if_neg (by omega)
        rw [hnone, mul_zero, zero_bmod, Int.zero_tdiv, natAbs_zero, natAbs_tdiv, natAbs_mul, natAbs_pow] at hlib
        have hlt := (Nat.div_eq_zero_iff_lt (natAbs_pos.2 hy0)).1 hlib.symm
        by_contra hx0
        have hgrow : 10 ^ 38 ≤ x.natAbs * 10 ^ divExponent a b := calc
          10 ^ 38 ≤ 10 ^ divExponent a b := Nat.pow_le_pow_right (by decide) (by omega)
          _ ≤ x.natAbs * 10 ^ divExponent a b := Nat.le_mul_of_pos_left _ (natAbs_pos.2 hx0)
        exact absurd (hlt.trans hy38) (not_lt.2 hgrow)
      · rcases h with rfl | ⟨h, -⟩
        · simp
        · exact absurd h hexp

theorem mulDiv_exact_quarter :
    (∀ arrow, mul ⟨3, 2, by decide, by decide⟩ ⟨3, 2, by decide, by decide⟩ 25 100 arrow = 2500) ∧
    ∀ arrow, div ⟨3, 2, by decide, by decide⟩ ⟨3, 2, by decide, by decide⟩ 25 100 arrow = 250000 := by
  have hexact := mulDiv_exact_iff (a := ⟨3, 2, by decide, by decide⟩) (b := ⟨3, 2, by decide, by decide⟩) (x := 25)
    (y := 100) (by decide) (by decide)
  exact ⟨fun arrow => (hexact.1.2 arrow).2 ⟨by decide, by decide⟩,
    (hexact.2.2 (by decide)).2 (.inr ⟨by decide, by decide, by decide⟩)⟩

/-- 10^20 times 1, at scale 10, and 10^37 over 10^10. -/
theorem mulDiv_overflow :
    (∀ arrow, mul ⟨38, 10, by decide, by decide⟩ ⟨38, 10, by decide, by decide⟩ (10 ^ 30) (10 ^ 10) arrow ≠ 10 ^ 26) ∧
    ∀ arrow, div ⟨38, 0, by decide, by decide⟩ ⟨38, 0, by decide, by decide⟩ (10 ^ 37) (10 ^ 10) arrow ≠ 10 ^ 33 := by
  refine ⟨fun arrow => ?_, fun arrow => ?_⟩
  · rw [mul_eq]
    decide +kernel
  · rw [div_eq, arrow.getScaleMultiplier_eq _ (by decide)]
    decide +kernel

end GengoDB.Decimals
