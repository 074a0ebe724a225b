import CamlFloats.Laws

/-!
# The C99 fallbacks under IEEE arithmetic: `caml_hypot`, `caml_expm1`, `caml_log1p`

Without `HAS_C99_FLOAT_OPS`, `floats.c` computes `hypot`, `expm1` and `log1p` itself with C's
rounded arithmetic (`Arith.lean`) and, for the last two, the math library's `exp` and `log`
(Kahan's emulations). In every rounding direction:

* `caml_hypot x y` lies between the larger of `|x|` and `|y|` and twice it, rounded: dividing
  the smaller by the larger keeps every intermediate below `2`, so the result is finite whenever
  twice the larger operand is, although `x * x` may overflow long before (`caml_hypot_bounds`).
  It is a NaN exactly when an operand is a NaN or both are infinite, and `+∞` when exactly one
  is infinite (`caml_hypot_special`). C99's `hypot` is `+∞` whenever an operand is infinite, a
  NaN included (F.9.4.3): the fallback differs at `(±∞, NaN)` and `(±∞, ±∞)`.
* `caml_expm1` returns `x` at `±0`, `-1` at `-∞` and a NaN for a NaN, but also a NaN wherever
  `exp(x)` is `+∞`: at `+∞`, and at every finite `x` whose exponential overflows, where C99's
  `expm1` is `+∞` (`caml_expm1_special`).
* `caml_log1p` returns `x` at `±0`, `-∞` at `-1`, and a NaN below `-1` and for a NaN, but also a
  NaN wherever `1 + x` rounds to `+∞`, `x = +∞` included, where C99's `log1p` is `+∞`
  (`caml_log1p_special`). On finite `x > -1` with `1 + x` finite it is never a NaN
  (`caml_log1p_not_isNaN`): its divisor `u - 1` is a nonzero double, because the difference of
  two doubles rounds to zero only when they are equal.
* Kahan's trick rests on `u - 1.` being exact: it is whenever `u` lies within a factor `2` of `1`,
  so for `-1/2 ≤ x ≤ 1` in `caml_log1p` and for `1/2 ≤ exp(x) ≤ 2` in `caml_expm1`
  (`caml_expm1_log1p_exact`, from Sterbenz's lemma in `Laws.lean`).

What `exp` and `log` must do is what Annex F fixes for them (`Libm`).
-/

namespace CamlFloats

open Double

/-! ## `caml_hypot` -/

namespace Rounding

variable (R : Rounding)

/-- On finite operands `0 ≤ b ≤ a`, `a` not a zero, `hypotOrdered` rounds `a × s` for some `s`
from `1` to `2`: `ratio` lies in `[0, 1]`, so `1 + ratio * ratio` in `[1, 2]`. -/
lemma hypotOrdered_of_isFinite {a b : Double} (ha : a.isFinite = true) (hb : b.isFinite = true)
    (ha₀ : a.isZero = false) (hb₀ : 0 ≤ b.value) (hba : b.value ≤ a.value) :
    ∃ s : Double, 1 ≤ s.value ∧ s.value ≤ 2 ∧
      hypotOrdered R.ops a b = R.rnd (a.value * s.value) := by
  have hz : zero.isFinite = true := by decide
  have h1 : one.isFinite = true := by decide
  have h2 : two.isFinite = true := by decide
  have hpos : 0 < a.value :=
    lt_of_le_of_ne (hb₀.trans hba) (fun h => by simp [(isZero_iff).2 h.symm] at ha₀)
  have v0 := value_zero
  have v1 := value_one
  have v2 := value_two
  set r := R.roundExact (b.signBit != a.signBit) (b.value / a.value)
  obtain ⟨hrf, hr₀, hr₁⟩ := R.roundExact_mem hz h1 _
    (show zero.value ≤ b.value / a.value by rw [v0]; exact div_nonneg hb₀ hpos.le)
    (show b.value / a.value ≤ one.value by rw [v1, div_le_one hpos]; exact hba)
  set t := R.roundExact (r.signBit != r.signBit) (r.value * r.value)
  obtain ⟨htf, ht₀, ht₁⟩ := R.roundExact_mem hz h1 _
    (show zero.value ≤ r.value * r.value by rw [v0]; exact mul_self_nonneg _)
    (show r.value * r.value ≤ one.value by
      rw [v0] at hr₀; rw [v1] at hr₁ ⊢; exact mul_le_one₀ hr₁ hr₀ hr₁)
  set w := R.roundExact (R.addSign one t) (one.value + t.value)
  obtain ⟨hwf, hw₁, hw₂⟩ := R.roundExact_mem h1 h2 _
    (show one.value ≤ one.value + t.value by linarith only [ht₀, v0])
    (show one.value + t.value ≤ two.value by linarith only [ht₁, v1, v2])
  obtain ⟨hsf, hs₁, hs₂⟩ := R.rndSqrt_mem h1 h2 (by rw [v1]; norm_num) (by rw [v2]; norm_num)
    (show one.value ^ 2 ≤ w.value by rw [v1, one_pow]; linarith only [hw₁, v1])
    (show w.value ≤ two.value ^ 2 by rw [v2]; linarith only [hw₂, v2])
  refine ⟨R.rndSqrt w.value, by linarith only [hs₁, v1], by linarith only [hs₂, v2], ?_⟩
  simp only [hypotOrdered, eq_zero_eq_false ha₀, Bool.false_eq_true, if_false, ops]
  rw [div_of_isFinite hb ha ha₀, mul_of_isFinite hrf hrf, add_of_isFinite h1 htf,
    sqrt_of_pos hwf (by linarith only [hw₁, v1]), mul_of_isFinite ha hsf,
    R.roundExact_of_ne_zero (mul_pos hpos (by linarith only [hs₁, v1])).ne']

/-- On finite operands `0 ≤ b ≤ a`, `hypotOrdered` returns a double that is not a NaN, at least
`a` (so at least `b`), and at most `2a` rounded, so finite while `2a` is at most the largest
finite double. -/
lemma hypotOrdered_bounds {a b : Double} (ha : a.isFinite = true) (hb : b.isFinite = true)
    (hb₀ : 0 ≤ b.value) (hba : b.value ≤ a.value) :
    (hypotOrdered R.ops a b).isNaN = false ∧
    b.extValue ≤ (hypotOrdered R.ops a b).extValue ∧
    a.extValue ≤ (hypotOrdered R.ops a b).extValue ∧
    (hypotOrdered R.ops a b).extValue ≤ (R.rnd (2 * a.value)).extValue ∧
    (2 * a.value ≤ maxFinite.value → (hypotOrdered R.ops a b).isFinite = true) := by
  have hm : maxFinite.isFinite = true := by decide
  have hba' : b.extValue ≤ a.extValue := by
    rw [extValue_of_isFinite ha, extValue_of_isFinite hb]
    exact_mod_cast hba
  suffices h : (hypotOrdered R.ops a b).isNaN = false ∧ a.extValue ≤ (hypotOrdered R.ops a b).extValue ∧
      (hypotOrdered R.ops a b).extValue ≤ (R.rnd (2 * a.value)).extValue from
    ⟨h.1, hba'.trans h.2.1, h.2.1, h.2.2, fun h₂ =>
      isFinite_of_between ha hm h.2.1 (h.2.2.trans (R.rnd_le hm h₂))⟩
  cases ha₀ : a.isZero
  · obtain ⟨s, hs₁, hs₂, h⟩ := R.hypotOrdered_of_isFinite ha hb ha₀ hb₀ hba
    have hpos : 0 ≤ a.value := hb₀.trans hba
    rw [h]
    exact ⟨R.rnd_not_isNaN _, R.le_rnd ha (le_mul_of_one_le_right hpos hs₁),
      R.rnd_mono (by rw [mul_comm 2]; exact mul_le_mul_of_nonneg_left hs₂ hpos)⟩
  · have h0 : a.value = 0 := value_of_isZero ha₀
    have hz : zero.isFinite = true := by decide
    have heq : a.eq zero = true := by rw [eq_eq_true_iff_value ha hz, h0, value_zero]
    simp only [hypotOrdered, heq, if_true]
    rw [extValue_of_isFinite ha, h0, mul_zero, ← value_zero, R.rnd_exact zero hz,
      extValue_of_isFinite hz, value_zero]
    exact ⟨by decide, le_rfl, le_rfl⟩

/-- With a finite zero `ratio`, the factor `sqrt(1.0 + ratio * ratio)` is a finite `1`. -/
lemma factor_of_value_zero {r : Double} (hr : r.isFinite = true) (hr₀ : r.value = 0) :
    (R.sqrt (R.add one (R.mul r r))).isFinite = true ∧
    (R.sqrt (R.add one (R.mul r r))).value = 1 ∧
    (R.sqrt (R.add one (R.mul r r))).signBit = false ∧
    (R.sqrt (R.add one (R.mul r r))).isZero = false := by
  have h1 : one.isFinite = true := by decide
  have hz := isZero_ofSignMagnitude_zero (r.signBit != r.signBit)
  obtain ⟨hwf, hwv⟩ := R.rnd_exact_value h1 (show one.value = 1 + 0 by rw [value_one, add_zero])
  rw [mul_of_isFinite hr hr, hr₀, mul_zero, roundExact_zero, add_of_isFinite h1 (isFinite_of_isZero hz),
    value_of_isZero hz, value_one, R.roundExact_of_ne_zero (by norm_num),
    sqrt_of_pos hwf (by rw [hwv]; norm_num), hwv]
  obtain ⟨hsf, hsv⟩ := R.rndSqrt_exact_value h1 (by rw [value_one]; norm_num)
    (show one.value ^ 2 = 1 + 0 by rw [value_one]; norm_num)
  rw [value_one] at hsv
  exact ⟨hsf, hsv, signBit_of_value_pos (by rw [hsv]; exact one_pos)⟩

/-- `hypotOrdered` with `+∞` first and a finite second operand is `+∞`: `ratio` is a zero, so the
factor `sqrt(1.0 + ratio * ratio)` is `1`. -/
lemma hypotOrdered_of_not_isFinite {a b : Double} (ha : a.isNaN = false)
    (ha' : a.isFinite = false) (has : a.signBit = false) (hb : b.isFinite = true) :
    hypotOrdered R.ops a b = posInf := by
  have hr₀ := isZero_ofSignMagnitude_zero (b.signBit != a.signBit)
  obtain ⟨hsf, -, hss, hsz⟩ :=
    R.factor_of_value_zero (isFinite_of_isZero hr₀) (value_of_isZero hr₀)
  simp only [hypotOrdered, eq_zero_eq_false (isZero_eq_false_of_not_isFinite ha'),
    Bool.false_eq_true, if_false, ops]
  rw [div_of_not_isFinite_right hb ha ha',
    mul_of_not_isFinite_left ha ha' (isNaN_of_isFinite hsf) hsz, hss, has]
  exact inf_false

/-- `hypotOrdered` with a finite `a` that is not a zero and a zero `b` rounds `a`. -/
lemma hypotOrdered_of_value_zero {a b : Double} (ha : a.isFinite = true)
    (ha₀ : a.isZero = false) (hb : b.isFinite = true) (hb₀ : b.value = 0) :
    hypotOrdered R.ops a b = R.rnd a.value := by
  have hr₀ := isZero_ofSignMagnitude_zero (b.signBit != a.signBit)
  obtain ⟨hsf, hsv, -, -⟩ :=
    R.factor_of_value_zero (isFinite_of_isZero hr₀) (value_of_isZero hr₀)
  simp only [hypotOrdered, eq_zero_eq_false ha₀, Bool.false_eq_true, if_false, ops]
  rw [div_of_isFinite hb ha ha₀, hb₀, zero_div, roundExact_zero, mul_of_isFinite ha hsf, hsv,
    mul_one, R.roundExact_of_ne_zero fun h => by simp [(isZero_iff).2 h] at ha₀]

/-- `hypotOrdered` with two infinite operands is a NaN: `ratio` is `∞ / ∞`. -/
lemma isNaN_hypotOrdered_of_not_isFinite {a b : Double} (ha' : a.isFinite = false)
    (hb' : b.isFinite = false) : (hypotOrdered R.ops a b).isNaN = true := by
  simp [hypotOrdered, eq_zero_eq_false (isZero_eq_false_of_not_isFinite ha'), ops, ha', hb']

end Rounding

lemma lt_posInf {a : Double} (ha : a.isFinite = true) : a.lt posInf = true := by
  have hk : a.key ≤ a.magnitude := by unfold key; split <;> omega
  have hm := (isFinite_iff a).1 ha
  rw [lt_eq_true]
  refine ⟨isNaN_of_isFinite ha, by decide, hk.trans_lt ?_⟩
  rw [show posInf.key = infMagnitude by decide]
  exact_mod_cast hm

lemma posInf_lt (a : Double) : posInf.lt a = false := by
  cases h : posInf.lt a
  · rfl
  · have hk := (lt_eq_true.1 h)
    have := (key_mem_Icc hk.2.1).2
    rw [show posInf.key = infMagnitude by decide] at hk
    omega

/-- Under IEEE arithmetic in any direction, `caml_hypot` on finite operands is at least both
absolute values and at most twice the larger rounded; it is finite while twice the larger is at
most the largest finite double. -/
theorem caml_hypot_bounds (R : Rounding) {x y : Double} (hx : x.isFinite = true)
    (hy : y.isFinite = true) :
    (caml_abs_float x).extValue ≤ (caml_hypot R.ops x y).extValue ∧
    (caml_abs_float y).extValue ≤ (caml_hypot R.ops x y).extValue ∧
    (caml_hypot R.ops x y).extValue ≤ (R.rnd (2 * max |x.value| |y.value|)).extValue ∧
    (2 * max |x.value| |y.value| ≤ maxFinite.value → (caml_hypot R.ops x y).isFinite = true) := by
  have hax : (caml_abs_float x).isFinite = true := by rwa [isFinite_caml_abs_float]
  have hay : (caml_abs_float y).isFinite = true := by rwa [isFinite_caml_abs_float]
  rw [caml_hypot_eq R.ops (isNaN_of_isFinite hx) (isNaN_of_isFinite hy)]
  split_ifs with hlt
  · rw [lt_eq_true_iff_value hax hay, value_caml_abs_float, value_caml_abs_float] at hlt
    obtain ⟨-, h₁, h₂, h₃, h₄⟩ := R.hypotOrdered_bounds hay hax
      (by rw [value_caml_abs_float]; positivity)
      (by rw [value_caml_abs_float, value_caml_abs_float]; exact hlt.le)
    rw [value_caml_abs_float] at h₃ h₄
    rw [max_eq_right hlt.le]
    exact ⟨h₁, h₂, h₃, h₄⟩
  · rw [lt_eq_true_iff_value hax hay, value_caml_abs_float, value_caml_abs_float] at hlt
    obtain ⟨-, h₁, h₂, h₃, h₄⟩ := R.hypotOrdered_bounds hax hay
      (by rw [value_caml_abs_float]; positivity)
      (by rw [value_caml_abs_float, value_caml_abs_float]; exact not_lt.1 hlt)
    rw [value_caml_abs_float] at h₃ h₄
    rw [max_eq_left (not_lt.1 hlt)]
    exact ⟨h₂, h₁, h₃, h₄⟩

/-- `caml_hypot_bounds` at `1.0` and `2.0`, rounding toward zero. -/
theorem caml_hypot_bounds_one_two :
    one.isFinite = true ∧ two.isFinite = true ∧
    (caml_abs_float one).extValue ≤ (caml_hypot Rounding.towardZero.ops one two).extValue ∧
    (caml_abs_float two).extValue ≤ (caml_hypot Rounding.towardZero.ops one two).extValue ∧
    (caml_hypot Rounding.towardZero.ops one two).extValue ≤
      (Rounding.towardZero.rnd (2 * max |one.value| |two.value|)).extValue ∧
    (2 * max |one.value| |two.value| ≤ maxFinite.value →
      (caml_hypot Rounding.towardZero.ops one two).isFinite = true) :=
  ⟨by decide, by decide, caml_hypot_bounds _ (by decide) (by decide)⟩

/-- Under IEEE arithmetic in any direction, `caml_hypot` is a NaN exactly when an operand is a
NaN or both are infinite, and `+∞` when exactly one is infinite. -/
theorem caml_hypot_special (R : Rounding) (x y : Double) :
    ((caml_hypot R.ops x y).isNaN = true ↔
      x.isNaN = true ∨ y.isNaN = true ∨ (x.isFinite = false ∧ y.isFinite = false)) ∧
    (x.isNaN = false → y.isNaN = false → x.isFinite ≠ y.isFinite →
      caml_hypot R.ops x y = posInf) := by
  cases hxn : x.isNaN
  · cases hyn : y.isNaN
    · rw [caml_hypot_eq R.ops hxn hyn]
      cases hxf : x.isFinite <;> cases hyf : y.isFinite
      · rw [caml_abs_float_of_not_isFinite hxn hxf, caml_abs_float_of_not_isFinite hyn hyf,
          posInf_lt]
        simp [R.isNaN_hypotOrdered_of_not_isFinite (show posInf.isFinite = false by decide)
          (show posInf.isFinite = false by decide)]
      · have hay : (caml_abs_float y).isFinite = true := by rwa [isFinite_caml_abs_float]
        rw [caml_abs_float_of_not_isFinite hxn hxf, posInf_lt,
          R.hypotOrdered_of_not_isFinite (by decide) (by decide) (by decide) hay]
        simp [show posInf.isNaN = false by decide]
      · have hax : (caml_abs_float x).isFinite = true := by rwa [isFinite_caml_abs_float]
        rw [caml_abs_float_of_not_isFinite hyn hyf, lt_posInf hax,
          R.hypotOrdered_of_not_isFinite (by decide) (by decide) (by decide) hax]
        simp [show posInf.isNaN = false by decide]
      · have hax : (caml_abs_float x).isFinite = true := by rwa [isFinite_caml_abs_float]
        have hay : (caml_abs_float y).isFinite = true := by rwa [isFinite_caml_abs_float]
        have hx₀ := value_caml_abs_float x
        have hy₀ := value_caml_abs_float y
        split_ifs with hlt
        · rw [lt_eq_true_iff_value hax hay] at hlt
          simp [(R.hypotOrdered_bounds hay hax (by rw [hx₀]; positivity) hlt.le).1]
        · rw [lt_eq_true_iff_value hax hay] at hlt
          simp [(R.hypotOrdered_bounds hax hay (by rw [hy₀]; positivity) (not_lt.1 hlt)).1]
    · simp [caml_hypot, Double.eq_self, hxn, hyn]
  · simp [caml_hypot, Double.eq_self, hxn]

/-- Under IEEE arithmetic in any direction, `caml_hypot x (±0)` and `caml_hypot (±0) x` are
`fabs(x)` as C's `==` sees it, as C99 requires of `hypot` (F.9.4.3), for every `x` that is not a
NaN. -/
theorem caml_hypot_zero (R : Rounding) {x y : Double} (hx : x.isNaN = false)
    (hy : y.isZero = true) :
    (caml_hypot R.ops x y).eq (caml_abs_float x) = true ∧
    (caml_hypot R.ops y x).eq (caml_abs_float x) = true := by
  have hz : zero.isFinite = true := by decide
  have hay : caml_abs_float y = zero := by
    simp only [isZero, decide_eq_true_eq] at hy
    simp only [caml_abs_float, hy]
    rfl
  have hlt : (caml_abs_float x).lt zero = false := by
    rw [Bool.eq_false_iff, ne_eq, lt_eq_true, show zero.key = 0 by decide]
    simp [key, signBit_caml_abs_float]
  rw [caml_hypot_eq R.ops hx (isNaN_of_isFinite (isFinite_of_isZero hy)),
    caml_hypot_eq R.ops (isNaN_of_isFinite (isFinite_of_isZero hy)) hx, hay, hlt]
  cases hxf : x.isFinite
  · rw [caml_abs_float_of_not_isFinite hx hxf, lt_posInf hz,
      R.hypotOrdered_of_not_isFinite (by decide) (by decide) (by decide) hz]
    simp [show posInf.eq posInf = true by decide]
  · have hax : (caml_abs_float x).isFinite = true := by rwa [isFinite_caml_abs_float]
    cases hx₀ : (caml_abs_float x).isZero
    · have hpos : zero.lt (caml_abs_float x) = true := by
        rw [lt_eq_true_iff_value hz hax, value_zero]
        exact lt_of_le_of_ne (by rw [value_caml_abs_float]; positivity)
          (fun h => by simp [(isZero_iff).2 h.symm] at hx₀)
      rw [hpos, R.hypotOrdered_of_value_zero hax hx₀ hz value_zero]
      exact ⟨R.rnd_eq_self hax, R.rnd_eq_self hax⟩
    · have h0 : (caml_abs_float x).eq zero = true := by
        rw [eq_eq_true_iff_value hax hz, value_of_isZero hx₀, value_zero]
      have hzl : zero.lt (caml_abs_float x) = false := by
        rw [Bool.eq_false_iff, ne_eq, lt_eq_true_iff_value hz hax, value_of_isZero hx₀, value_zero]
        exact lt_irrefl _
      simp only [hzl, hypotOrdered, h0, show zero.eq zero = true by decide, if_true,
        Bool.false_eq_true, if_false]
      rw [eq_eq_true_iff_value hz hax, value_of_isZero hx₀, value_zero]
      exact ⟨rfl, rfl⟩

/-- `caml_hypot_zero` at `2.0` and `0.0`, rounding toward zero. -/
theorem caml_hypot_zero_two :
    two.isNaN = false ∧ zero.isZero = true ∧
    (caml_hypot Rounding.towardZero.ops two zero).eq (caml_abs_float two) = true ∧
    (caml_hypot Rounding.towardZero.ops zero two).eq (caml_abs_float two) = true :=
  ⟨by decide, by decide, caml_hypot_zero _ (by decide) (by decide)⟩

/-! ## Kahan's `caml_expm1` and `caml_log1p` -/

/-- The math library's `exp` and `log` as far as C99's Annex F fixes them (F.9.3.1, F.9.3.7): the
special values, and, since a positive number is in `log`'s domain, no NaN for one. -/
structure Libm where
  exp : Double → Double
  log : Double → Double
  /-- `exp(NaN)` is a NaN. -/
  exp_nan (d : Double) : d.isNaN = true → (exp d).isNaN = true
  /-- `exp(±0)` returns `1`. -/
  exp_zero (d : Double) : d.isZero = true → exp d = one
  /-- `exp(-∞)` returns `+0`. -/
  exp_negInf : exp negInf = zero
  /-- `exp(+∞)` returns `+∞`. -/
  exp_posInf : exp posInf = posInf
  /-- `log(±0)` returns `-∞`. -/
  log_zero (d : Double) : d.isZero = true → log d = negInf
  /-- `log(x)` returns a NaN for `x < 0`, `-∞` included. -/
  log_neg (d : Double) : d.isNaN = false → d.signBit = true → d.isZero = false →
    (log d).isNaN = true
  /-- `log(+∞)` returns `+∞`. -/
  log_posInf : log posInf = posInf
  /-- `log` of a positive finite double is not a NaN. -/
  log_pos (d : Double) : d.isFinite = true → d.signBit = false → d.isZero = false →
    (log d).isNaN = false

/-- A library that meets `Libm` and no more: where Annex F leaves the value to the library's
accuracy, `exp` returns `1.0` and `log` returns `+0`. -/
def Libm.specialValues : Libm where
  exp d := if d.isNaN then nan else if d = negInf then zero else if d = posInf then posInf else one
  log d :=
    if d.isNaN || (d.signBit && !d.isZero) then nan
    else if d.isZero then negInf else if d = posInf then posInf else zero
  exp_nan d h := by simp [h]
  exp_zero d h := by
    have hn := isNaN_of_isFinite (isFinite_of_isZero h)
    have h₁ : d ≠ negInf := by rintro rfl; exact absurd h (by decide)
    have h₂ : d ≠ posInf := by rintro rfl; exact absurd h (by decide)
    simp [hn, h₁, h₂]
  exp_negInf := by decide
  exp_posInf := by decide
  log_zero d h := by simp [isNaN_of_isFinite (isFinite_of_isZero h), h]
  log_neg d hn hs hz := by simp [hn, hs, hz]
  log_posInf := by decide
  log_pos d hf hs hz := by
    have h₁ : d ≠ posInf := by rintro rfl; exact absurd hf (by decide)
    simp [isNaN_of_isFinite hf, hs, hz, h₁, show zero.isNaN = false by decide]

/-- `caml_expm1` without `HAS_C99_FLOAT_OPS`: `u = exp(x)`; `x` if `u == 1.`, `-1.` if
`u - 1. == -1.`, and otherwise `(u - 1.) * x / log(u)`. -/
def caml_expm1 (R : Rounding) (L : Libm) (x : Double) : Double :=
  let u := L.exp x
  if u.eq one then x
  else if (R.sub u one).eq minusOne then minusOne
  else R.div (R.mul (R.sub u one) x) (L.log u)

/-- `caml_log1p` without `HAS_C99_FLOAT_OPS`: `u = 1. + x`; `x` if `u == 1.`, and otherwise
`log(u) * x / (u - 1.)`. -/
def caml_log1p (R : Rounding) (L : Libm) (x : Double) : Double :=
  let u := R.add one x
  if u.eq one then x
  else R.div (R.mul (L.log u) x) (R.sub u one)

lemma Double.eq_eq_false_of_isNaN {u : Double} (h : u.isNaN = true) (d : Double) :
    u.eq d = false := by
  simp [Double.eq, h]

namespace Rounding

variable (R : Rounding)

/-- `∞ - 1.` is `∞`. -/
lemma sub_one_of_not_isFinite {u : Double} (hu : u.isNaN = false) (hu' : u.isFinite = false) :
    R.sub u one = u :=
  R.add_of_not_isFinite_left hu hu' (by rw [isFinite_caml_neg_float]; decide)

/-- A finite `u` minus `1.` rounds `u.value - 1`, an exact `0` to a zero. -/
lemma sub_one_of_isFinite {u : Double} (hu : u.isFinite = true) :
    R.sub u one = R.roundExact (R.addSign u (caml_neg_float one)) (u.value + -1) := by
  rw [R.sub_of_isFinite hu (by decide), value_one]

end Rounding

/-- Under IEEE arithmetic in any direction and an Annex F `exp` and `log`, Kahan's `caml_expm1`
returns a NaN for a NaN, `x` itself at `±0`, and exactly `-1` wherever `exp(x)` is a zero (at
`-∞`, and wherever it underflows); and a NaN wherever `exp(x)` is `+∞`, where C99's `expm1` is
`+∞`: `(u - 1) * x / log(u)` is then `∞ / ∞`. -/
theorem caml_expm1_special (R : Rounding) (L : Libm) (x : Double) :
    (x.isNaN = true → (caml_expm1 R L x).isNaN = true) ∧
    (x.isZero = true → caml_expm1 R L x = x) ∧
    ((L.exp x).isZero = true → caml_expm1 R L x = minusOne) ∧
    (L.exp x = posInf → (caml_expm1 R L x).isNaN = true) := by
  have hm : minusOne.isFinite = true := by decide
  refine ⟨fun hx => ?_, fun hx => ?_, fun hu => ?_, fun hu => ?_⟩
  · have hu := L.exp_nan x hx
    simp [caml_expm1, eq_eq_false_of_isNaN hu, Rounding.sub, hu]
  · simp [caml_expm1, L.exp_zero x hx, show one.eq one = true by decide]
  · have huf := isFinite_of_isZero hu
    have hsub : R.sub (L.exp x) one = R.rnd minusOne.value := by
      rw [R.sub_one_of_isFinite huf, value_of_isZero hu, value_minusOne, zero_add,
        R.roundExact_of_ne_zero (by norm_num)]
    have hne : (L.exp x).eq one = false :=
      eq_eq_false_of_value_ne huf (by decide) (by rw [value_of_isZero hu, value_one]; norm_num)
    simp [caml_expm1, hne, hsub, R.rnd_eq_self hm]
  · simp [caml_expm1, hu, show posInf.eq one = false by decide,
      R.sub_one_of_not_isFinite isNaN_posInf isFinite_posInf,
      show posInf.eq minusOne = false by decide, L.log_posInf, R.isFinite_mul_of_left isFinite_posInf]

/-- `1. + x` at `x = ±0` is `1.`, which C's `==` finds equal to `1.`. -/
lemma Rounding.add_one_zero_eq (R : Rounding) {x : Double} (hx : x.isZero = true) :
    (R.add one x).eq one = true := by
  rw [R.add_of_isFinite (by decide) (isFinite_of_isZero hx), value_of_isZero hx, add_zero,
    R.roundExact_of_ne_zero (by rw [value_one]; exact one_ne_zero)]
  exact R.rnd_eq_self (by decide)

/-- Under IEEE arithmetic in any direction and an Annex F `log`, Kahan's `caml_log1p` returns a
NaN for a NaN, `x` itself at `±0`, `-∞` at `-1` and a NaN below `-1`; and a NaN wherever `1 + x`
rounds to `+∞`, where C99's `log1p` is `+∞`: `log(u) * x / (u - 1)` is then `∞ / ∞`. -/
theorem caml_log1p_special (R : Rounding) (L : Libm) (x : Double) :
    (x.isNaN = true → (caml_log1p R L x).isNaN = true) ∧
    (x.isZero = true → caml_log1p R L x = x) ∧
    (x.eq minusOne = true → caml_log1p R L x = negInf) ∧
    (x.lt minusOne = true → (caml_log1p R L x).isNaN = true) ∧
    (R.add one x = posInf → (caml_log1p R L x).isNaN = true) := by
  have h1 : one.isFinite = true := by decide
  have hm : minusOne.isFinite = true := by decide
  refine ⟨fun hx => ?_, fun hx => ?_, fun hx => ?_, fun hx => ?_, fun hu => ?_⟩
  · have hu : (R.add one x).isNaN = true := by simp [hx]
    simp [caml_log1p, eq_eq_false_of_isNaN hu, hx]
  · simp [caml_log1p, R.add_one_zero_eq hx]
  · have hxf : x.isFinite = true := (isFinite_eq_of_eq hx).trans hm
    have hxv : x.value = -1 := ((eq_eq_true_iff_value hxf hm).1 hx).trans value_minusOne
    obtain ⟨huf, huv⟩ := R.roundExact_exact_value (show zero.isFinite = true by decide)
      (R.addSign one x)
      (show zero.value = one.value + x.value by rw [value_zero, value_one, hxv]; norm_num)
    rw [← R.add_of_isFinite h1 hxf] at huf huv
    rw [value_one, hxv, add_neg_cancel] at huv
    obtain ⟨hdf, hdv⟩ := R.roundExact_exact_value hm (R.addSign (R.add one x) (caml_neg_float one))
      (show minusOne.value = 0 + -1 by rw [value_minusOne]; norm_num)
    rw [← huv, ← R.sub_one_of_isFinite huf] at hdf hdv
    obtain ⟨hxs, hxz⟩ := sign_of_value_neg (show x.value < 0 by rw [hxv]; norm_num)
    obtain ⟨hds, -⟩ := sign_of_value_neg (show (R.sub (R.add one x) one).value < 0 by
      rw [hdv, huv]; norm_num)
    have hne : (R.add one x).eq one = false :=
      eq_eq_false_of_value_ne huf h1 (by rw [huv, value_one]; norm_num)
    simp only [caml_log1p, hne, Bool.false_eq_true, if_false, L.log_zero _ ((isZero_iff).2 huv)]
    rw [R.mul_of_not_isFinite_left isNaN_negInf isFinite_negInf (isNaN_of_isFinite hxf) hxz,
      signBit_negInf, hxs, R.div_of_not_isFinite_left (by simp) (by simp) hdf]
    simp [hds, inf_true]
  · obtain ⟨hxn, -, hk⟩ := lt_eq_true.1 hx
    have hneg : (R.add one x).isNaN = false ∧ (R.add one x).extValue < 0 := by
      cases hxf : x.isFinite
      · rw [R.add_of_not_isFinite_right h1 hxn hxf]
        refine ⟨hxn, lt_of_lt_of_le ((extValue_lt_iff hxn (isNaN_of_isFinite hm)).2 hk) ?_⟩
        rw [extValue_of_isFinite hm, value_minusOne]
        exact_mod_cast (by norm_num : (-1 : ℚ) ≤ 0)
      · have hv : one.value + x.value < 0 := by
          rw [value_one]
          linarith [(lt_eq_true_iff_value hxf hm).1 hx, value_minusOne]
        rw [R.add_of_isFinite h1 hxf, R.extValue_roundExact]
        exact ⟨R.isNaN_roundExact _ _, R.rnd_add_neg hv⟩
    obtain ⟨hs, hz⟩ := signBit_of_extValue_neg hneg.2
    have hne : (R.add one x).eq one = false := eq_eq_false_of_extValue_ne (ne_of_lt
      (hneg.2.trans (by rw [extValue_of_isFinite h1, value_one]; exact_mod_cast one_pos)))
    simp [caml_log1p, hne, L.log_neg _ hneg.1 hs hz]
  · simp [caml_log1p, hu, show posInf.eq one = false by decide, L.log_posInf,
      R.sub_one_of_not_isFinite isNaN_posInf isFinite_posInf, R.isFinite_mul_of_left isFinite_posInf]

/-- Under IEEE arithmetic in any direction and an Annex F `log`, Kahan's `caml_log1p` is never a
NaN on a finite `x > -1` whose `1 + x` is finite. Its divisor `u - 1` is a finite double that is
not a zero: `u = 1 + x` is not `1`, and a nonzero difference of doubles is at least the least
subnormal, so it does not round to zero. -/
theorem caml_log1p_not_isNaN (R : Rounding) (L : Libm) {x : Double} (hx : x.isFinite = true)
    (hx₁ : minusOne.lt x = true) (hu : (R.add one x).isFinite = true) :
    (caml_log1p R L x).isNaN = false := by
  have h1 : one.isFinite = true := by decide
  have hm : minusOne.isFinite = true := by decide
  have hv : -1 < x.value := by rw [← value_minusOne]; exact (lt_eq_true_iff_value hm hx).1 hx₁
  have hpos := R.rnd_add_pos (show 0 < one.value + x.value by rw [value_one]; linarith)
  rw [← R.extValue_roundExact (R.addSign one x), ← R.add_of_isFinite h1 hx,
    extValue_of_isFinite hu] at hpos
  have hupos : 0 < (R.add one x).value := by exact_mod_cast hpos
  obtain ⟨hus, huz⟩ := signBit_of_value_pos hupos
  simp only [caml_log1p]
  split_ifs with h
  · exact isNaN_of_isFinite hx
  have hx₀ : x.isZero = false := by
    cases hz : x.isZero
    · rfl
    · exact absurd (R.add_one_zero_eq hz) h
  have hdz := R.sub_isZero_eq_false hu h1 (fun e => h ((eq_eq_true_iff_value hu h1).2 e))
  have hdf : (R.sub (R.add one x) one).isFinite = true := by
    rw [R.sub_one_of_isFinite hu]
    exact (R.roundExact_mem hm (show maxFinite.isFinite = true by decide) _
      (by rw [value_minusOne]; linarith) (by linarith [value_le_maxFinite hu])).1
  have hp : (R.mul (L.log (R.add one x)) x).isNaN = false := by
    cases hlf : (L.log (R.add one x)).isFinite <;>
      simp [L.log_pos _ hu hus huz, hlf, isNaN_of_isFinite hx, hx, hx₀,
        isZero_eq_false_of_not_isFinite]
  simp [hp, isNaN_of_isFinite hdf, hdf, hdz]

/-- `caml_log1p_not_isNaN` at `1.0`, rounding toward zero. -/
theorem caml_log1p_not_isNaN_one :
    one.isFinite = true ∧ minusOne.lt one = true ∧
    (Rounding.towardZero.add one one).isFinite = true ∧
    (caml_log1p Rounding.towardZero Libm.specialValues one).isNaN = false :=
  have hu : (Rounding.towardZero.add one one).isFinite = true := by
    rw [Rounding.add_of_isFinite (by decide) (by decide),
      Rounding.roundExact_of_ne_zero _ (by rw [value_one]; norm_num)]
    exact (towardZeroRnd_spec _).1
  ⟨by decide, by decide, hu, caml_log1p_not_isNaN _ _ (by decide) (by decide) hu⟩

/-- Some double has the value `1 / 2`. -/
lemma exists_double_half : ∃ h : Double, h.isFinite = true ∧ h.value = 1 / 2 := by
  obtain ⟨M, hM, hs⟩ := exists_scaledOf_mul 1073 1 (by norm_num) (by norm_num)
  obtain ⟨h, hf, hv⟩ := exists_double_eq_div hM
    (show scaledOf M = ((2 ^ 1073 : ℕ) : ℤ).natAbs by rw [Int.natAbs_ofNat, hs, one_mul])
  refine ⟨h, hf, ?_⟩
  rw [hv, Int.cast_natCast, Nat.cast_pow, Nat.cast_ofNat,
    show (2 : ℚ) ^ 1074 = 2 ^ 1073 * 2 by rw [← pow_succ], div_mul_eq_div_div,
    div_self (by positivity)]

/-- Within a factor `2` of `1`, `u - 1.` is exact (Sterbenz's lemma). -/
lemma Rounding.sub_one_exact (R : Rounding) {u : Double} (hu : u.isFinite = true)
    (h₁ : 1 / 2 ≤ u.value) (h₂ : u.value ≤ 2) :
    (R.sub u one).isFinite = true ∧ (R.sub u one).value = u.value - 1 := by
  obtain ⟨d, hd, hv⟩ := exists_double_eq_sub hu (show one.isFinite = true by decide)
    (by rw [value_one]; linarith) (by rw [value_one]; linarith)
  rw [R.sub_one_of_isFinite hu, ← sub_eq_add_neg]
  exact R.roundExact_exact_value hd _ (by rw [hv, value_one])

/-- Kahan's fallbacks subtract `1.` exactly when `u` is within a factor `2` of `1`, in every
rounding direction: for `-1/2 ≤ x ≤ 1`, `caml_log1p x` is `x` or `log(u) * x / e`, and for
`1/2 ≤ exp(x) ≤ 2`, `caml_expm1 x` is `x` or `e * x / log(u)`, where `e = u - 1.` is a finite
double of value exactly `u - 1`, not a zero. The `-1.` branch of `caml_expm1` is then never
taken. -/
theorem caml_expm1_log1p_exact (R : Rounding) (L : Libm) {x : Double} (hx : x.isFinite = true) :
    (-1 / 2 ≤ x.value → x.value ≤ 1 →
      caml_log1p R L x = x ∨ ∃ e : Double, e.isFinite = true ∧
        e.value = (R.add one x).value - 1 ∧ e.value ≠ 0 ∧
        caml_log1p R L x = R.div (R.mul (L.log (R.add one x)) x) e) ∧
    ((L.exp x).isFinite = true → 1 / 2 ≤ (L.exp x).value → (L.exp x).value ≤ 2 →
      caml_expm1 R L x = x ∨ ∃ e : Double, e.isFinite = true ∧
        e.value = (L.exp x).value - 1 ∧ e.value ≠ 0 ∧
        caml_expm1 R L x = R.div (R.mul e x) (L.log (L.exp x))) := by
  have h1 : one.isFinite = true := by decide
  -- a `u` within a factor `2` of `1` other than `1` has an exact, nonzero `u - 1.`
  have hne : ∀ {u : Double}, u.isFinite = true → u.eq one = false → u.value - 1 ≠ 0 :=
    fun hu hu1 h => absurd ((eq_eq_true_iff_value hu h1).2 (by rw [value_one]; linarith))
      (by rw [hu1]; decide)
  refine ⟨fun hx₁ hx₂ => ?_, fun hu hu₁ hu₂ => ?_⟩
  · obtain ⟨h, hf, hv⟩ := exists_double_half
    obtain ⟨huf, hu₁, hu₂⟩ := R.roundExact_mem hf (show two.isFinite = true by decide)
      (R.addSign one x) (show h.value ≤ one.value + x.value by rw [hv, value_one]; linarith)
      (show one.value + x.value ≤ two.value by rw [value_one, value_two]; linarith)
    rw [← R.add_of_isFinite h1 hx] at huf hu₁ hu₂
    rw [hv] at hu₁
    rw [value_two] at hu₂
    cases hu1 : (R.add one x).eq one
    · obtain ⟨hef, hev⟩ := R.sub_one_exact huf hu₁ hu₂
      exact .inr ⟨_, hef, hev, hev ▸ hne huf hu1, by simp [caml_log1p, hu1]⟩
    · exact .inl (by simp [caml_log1p, hu1])
  · cases hu1 : (L.exp x).eq one
    · obtain ⟨hef, hev⟩ := R.sub_one_exact hu hu₁ hu₂
      have hm : (R.sub (L.exp x) one).eq minusOne = false :=
        eq_eq_false_of_value_ne hef (by decide) (by rw [hev, value_minusOne]; linarith)
      exact .inr ⟨_, hef, hev, hev ▸ hne hu hu1, by simp [caml_expm1, hu1, hm]⟩
    · exact .inl (by simp [caml_expm1, hu1])

/-- `caml_expm1_log1p_exact` at `1.0`, rounding toward zero, with the library of special values
only. -/
theorem caml_expm1_log1p_exact_one :
    one.isFinite = true ∧
    (-1 / 2 ≤ one.value → one.value ≤ 1 →
      caml_log1p Rounding.towardZero Libm.specialValues one = one ∨ ∃ e : Double,
        e.isFinite = true ∧ e.value = (Rounding.towardZero.add one one).value - 1 ∧
        e.value ≠ 0 ∧
        caml_log1p Rounding.towardZero Libm.specialValues one =
          Rounding.towardZero.div
            (Rounding.towardZero.mul (Libm.specialValues.log (Rounding.towardZero.add one one))
              one) e) ∧
    ((Libm.specialValues.exp one).isFinite = true → 1 / 2 ≤ (Libm.specialValues.exp one).value →
      (Libm.specialValues.exp one).value ≤ 2 →
      caml_expm1 Rounding.towardZero Libm.specialValues one = one ∨ ∃ e : Double,
        e.isFinite = true ∧ e.value = (Libm.specialValues.exp one).value - 1 ∧ e.value ≠ 0 ∧
        caml_expm1 Rounding.towardZero Libm.specialValues one =
          Rounding.towardZero.div (Rounding.towardZero.mul e one)
            (Libm.specialValues.log (Libm.specialValues.exp one))) :=
  ⟨by decide, caml_expm1_log1p_exact _ _ (by decide)⟩

end CamlFloats
