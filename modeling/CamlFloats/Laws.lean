import CamlFloats.Arith
import CamlFloats.Nearest

/-!
# Laws of the rounded arithmetic

What IEEE 754 arithmetic guarantees of `caml_add_float`, `caml_sub_float`, `caml_mul_float`,
`caml_div_float` and `caml_sqrt_float`, as `Rounding.add`, `Rounding.sub`, `Rounding.mul`,
`Rounding.div` and `Rounding.sqrt` model them, in every rounding direction unless the default one
is named:

* `+` and `*` are commutative (`add_mul_comm`): the exact sum and product are, and so are the
  special cases and the sign of an exact zero; only which NaN comes of a NaN operand is left to
  the processor, and may depend on the order;
* `+` is monotone under C's `<=` while the sums are not NaNs (`add_le_add_of_le`): rounding is
  monotone, and the infinities are the ends of the order;
* Sterbenz's lemma: `x - y` is exact when `y / 2 ≤ x ≤ 2 * y` (`sub_exact`). In units of the least
  subnormal both operands are multiples of the smaller one's unit, and their difference is at
  most the smaller operand, so it has at most 53 bits of that unit. The subtraction `u - 1.0` of
  Kahan's `caml_expm1` and `caml_log1p` is of this kind whenever `u` is within a factor `2` of
  `1` (`caml_expm1_log1p_exact` in `Fallbacks.lean`);
* with gradual underflow, `x - y == 0.0` exactly when `x == y` (`sub_eq_zero_iff_eq`);
* `sqrt` is exact on a double that is the square of a double (`sqrt_exact`);
* in the default direction, roundTiesToEven, `+`, `-`, `*`, `/` and `sqrt` are correctly rounded
  (`nearestEven_nearest`), and negation commutes with them under C's `==`
  (`nearestEven_neg_symm`).
-/

namespace CamlFloats

open Double

namespace Double

/-- On words that are not NaNs, C's `<=` is the order of the extended values. -/
lemma le_eq_true_iff_extValue {f g : Double} (hf : f.isNaN = false) (hg : g.isNaN = false) :
    f.le g = true ↔ f.extValue ≤ g.extValue := by
  rw [extValue_le_iff hf hg]
  simp [hf, hg]

/-- Two infinities of one sign are one word. -/
lemma eq_of_not_isFinite {a b : Double} (ha : a.isNaN = false) (ha' : a.isFinite = false)
    (hb : b.isNaN = false) (hb' : b.isFinite = false) (hs : a.signBit = b.signBit) : a = b := by
  have hma := (magnitude_le_inf ha).2.1 (by simpa [isFinite] using ha')
  have hmb := (magnitude_le_inf hb).2.1 (by simpa [isFinite] using hb')
  exact ext_of_key_eq hs (hma.trans hmb.symm)

end Double

namespace Rounding

/-! ## Commutativity -/

/-- On operands that are not NaNs, the exact sum, the sign of an exact zero sum and the infinity
cases of `Rounding.add` are symmetric. -/
lemma add_swap (R : Rounding) {a b : Double} (han : a.isNaN = false) (hbn : b.isNaN = false) :
    R.add a b = R.add b a := by
  cases haf : a.isFinite <;> cases hbf : b.isFinite
  · by_cases hs : a.signBit = b.signBit
    · rw [eq_of_not_isFinite han haf hbn hbf hs]
    · simp [add, han, hbn, haf, hbf, bne_iff_ne.2 hs, bne_iff_ne.2 (Ne.symm hs)]
  · rw [add_of_not_isFinite_left han haf hbf, add_of_not_isFinite_right hbf han haf]
  · rw [add_of_not_isFinite_right haf hbn hbf, add_of_not_isFinite_left hbn hbf haf]
  · rw [add_of_isFinite haf hbf, add_of_isFinite hbf haf, add_comm, R.addSign_comm]

/-- `caml_add_float` and `caml_mul_float` are commutative in every rounding direction: swapping
the operands keeps a result a NaN or not, and on operands that are not NaNs it gives the same
double, the sign of a zero included. -/
theorem add_mul_comm (R : Rounding) (a b : Double) :
    (R.add a b).isNaN = (R.add b a).isNaN ∧ (R.mul a b).isNaN = (R.mul b a).isNaN ∧
    (a.isNaN = false → b.isNaN = false → R.add a b = R.add b a ∧ R.mul a b = R.mul b a) := by
  have hs : (a.signBit != b.signBit) = (b.signBit != a.signBit) := Bool.xor_comm _ _
  refine ⟨?_, ?_, fun han hbn => ⟨R.add_swap han hbn, ?_⟩⟩
  · rw [isNaN_add, isNaN_add, hs, Bool.or_comm a.isNaN, Bool.and_comm (!a.isFinite)]
  · rw [isNaN_mul, isNaN_mul, Bool.or_comm a.isNaN, Bool.or_comm (!a.isFinite),
      Bool.or_comm a.isZero]
  · simp [mul, han, hbn, Bool.or_comm, hs, mul_comm]

/-! ## Monotonicity -/

variable {R : Rounding} {a : Double}

/-- Adding to an infinity gives the infinity back whenever the sum is not a NaN. -/
lemma add_eq_of_not_isFinite {c : Double} (ha : a.isFinite = false)
    (h : (R.add a c).isNaN = false) : R.add a c = a := by
  simp only [isNaN_add, Bool.or_eq_false_iff] at h
  obtain ⟨⟨han, hcn⟩, hs⟩ := h
  simp_all [add]

/-- `caml_add_float` is monotone under C's `<=` in its second operand (and so, by `add_swap`, in
its first), in every rounding direction, as long as the sums are not NaNs. -/
theorem add_le_add_of_le (R : Rounding) {a b b' : Double} (hb : b.le b' = true)
    (h : (R.add a b).isNaN = false) (h' : (R.add a b').isNaN = false) :
    (R.add a b).le (R.add a b') = true := by
  obtain ⟨hbn, hb'n, -⟩ := le_eq_true.1 hb
  have hle := (le_eq_true_iff_extValue hbn hb'n).1 hb
  rw [le_eq_true_iff_extValue h h']
  cases haf : a.isFinite
  · rw [add_eq_of_not_isFinite haf h, add_eq_of_not_isFinite haf h']
  cases hbf : b.isFinite <;> cases hb'f : b'.isFinite
  · rwa [add_of_not_isFinite_right haf hbn hbf, add_of_not_isFinite_right haf hb'n hb'f]
  · -- an infinity below a finite value is `-∞`
    rw [extValue_of_not_isFinite hbf, extValue_of_isFinite hb'f] at hle
    rw [add_of_not_isFinite_right haf hbn hbf, extValue_of_not_isFinite hbf]
    cases hs : b.signBit <;> simp_all
  · -- an infinity above a finite value is `+∞`
    rw [extValue_of_isFinite hbf, extValue_of_not_isFinite hb'f] at hle
    rw [add_of_not_isFinite_right haf hb'n hb'f, extValue_of_not_isFinite hb'f]
    cases hs : b'.signBit <;> simp_all
  · rw [extValue_of_isFinite hbf, extValue_of_isFinite hb'f] at hle
    rw [add_of_isFinite haf hbf, add_of_isFinite haf hb'f, extValue_roundExact, extValue_roundExact]
    exact R.rnd_mono (add_le_add_left (by exact_mod_cast hle) _)

/-- `add_le_add_of_le` at `1.0 + 1.0` and `1.0 + 2.0`, rounding toward zero. -/
theorem add_le_add_of_le_one_two :
    one.le two = true ∧ (towardZero.add one one).isNaN = false ∧
    (towardZero.add one two).isNaN = false ∧
    (towardZero.add one one).le (towardZero.add one two) = true :=
  ⟨by decide, by rw [isNaN_add]; decide, by rw [isNaN_add]; decide,
    add_le_add_of_le _ (by decide) (by rw [isNaN_add]; decide) (by rw [isNaN_add]; decide)⟩

end Rounding

/-! ## Sterbenz's lemma -/

/-- Magnitude bits count a significand below `2 ^ 53` of units `2 ^ (max e 1 - 1)`, `e` the
exponent field. -/
lemma scaledOf_eq_mul (M : Nat) :
    ∃ t, t < 2 ^ 53 ∧ scaledOf M = t * 2 ^ (max (M / 2 ^ 52) 1 - 1) :=
  ⟨if M / 2 ^ 52 = 0 then M % 2 ^ 52 else 2 ^ 52 + M % 2 ^ 52, by split <;> omega, rfl⟩

/-- Sterbenz's lemma in units of the least subnormal: if finite magnitude bits `A` and `B` count
`α ≥ β` units with `α ≤ 2 * β`, then `α - β` is the count of finite magnitude bits. Both counts
are multiples of `B`'s unit, and `α - β ≤ β` is less than `2 ^ 53` of them. -/
lemma exists_scaledOf_sub {A B : Nat} (hA : A < infMagnitude) (h₁ : scaledOf B ≤ scaledOf A)
    (h₂ : scaledOf A ≤ 2 * scaledOf B) :
    ∃ M, M < infMagnitude ∧ scaledOf M = scaledOf A - scaledOf B := by
  obtain ⟨tA, -, hsA⟩ := scaledOf_eq_mul A
  obtain ⟨tB, htB, hsB⟩ := scaledOf_eq_mul B
  have hBA : B ≤ A := scaledOf_strictMono.le_iff_le.1 h₁
  set eA := max (A / 2 ^ 52) 1 - 1 with heA
  set eB := max (B / 2 ^ 52) 1 - 1 with heB
  have he : eB ≤ eA := by omega
  have hdiff : scaledOf A - scaledOf B = (tA * 2 ^ (eA - eB) - tB) * 2 ^ eB := by
    rw [hsA, hsB, Nat.sub_mul, mul_assoc, ← pow_add, Nat.sub_add_cancel he]
  have hj : tA * 2 ^ (eA - eB) - tB < 2 ^ 53 := by
    have h : (tA * 2 ^ (eA - eB) - tB) * 2 ^ eB < 2 ^ 53 * 2 ^ eB :=
      calc (tA * 2 ^ (eA - eB) - tB) * 2 ^ eB = scaledOf A - scaledOf B := hdiff.symm
        _ ≤ scaledOf B := by omega
        _ = tB * 2 ^ eB := hsB
        _ < 2 ^ 53 * 2 ^ eB := Nat.mul_lt_mul_of_pos_right htB (by positivity)
    exact Nat.lt_of_mul_lt_mul_right h
  rw [hdiff]
  exact exists_scaledOf_mul eB _ hj (by simp only [infMagnitude] at hA; omega)

/-- Sterbenz's lemma on values, larger operand first: the difference of finite doubles
`a ≥ b ≥ a / 2` is the value of a finite double. -/
lemma exists_double_eq_sub_of_le {a b : Double} (ha : a.isFinite = true) (hb₀ : 0 ≤ b.value)
    (h₁ : b.value ≤ a.value) (h₂ : a.value ≤ 2 * b.value) :
    ∃ d : Double, d.isFinite = true ∧ d.value = a.value - b.value := by
  have hva := value_of_nonneg (hb₀.trans h₁)
  have hvb := value_of_nonneg hb₀
  have hc : (0 : ℚ) < 2 ^ 1074 := by positivity
  have hAB : scaledOf b.magnitude ≤ scaledOf a.magnitude := by
    rw [hva, hvb, div_le_div_iff_of_pos_right hc] at h₁
    exact_mod_cast h₁
  have h2AB : scaledOf a.magnitude ≤ 2 * scaledOf b.magnitude := by
    rw [hva, hvb, ← mul_div_assoc, div_le_div_iff_of_pos_right hc] at h₂
    exact_mod_cast h₂
  obtain ⟨M, hM, hs⟩ := exists_scaledOf_sub ((isFinite_iff a).1 ha) hAB h2AB
  obtain ⟨d, hd, hv⟩ := exists_double_eq_div hM
    (show scaledOf M = ((scaledOf a.magnitude - scaledOf b.magnitude : Nat) : Int).natAbs from hs)
  refine ⟨d, hd, ?_⟩
  rw [hv, hva, hvb, ← sub_div]
  push_cast [Nat.cast_sub hAB]
  rfl

/-- Sterbenz's lemma on values: the difference of finite doubles `a`, `b` with
`b / 2 ≤ a ≤ 2 * b` is the value of a finite double. -/
lemma exists_double_eq_sub {a b : Double} (ha : a.isFinite = true) (hb : b.isFinite = true)
    (h₁ : b.value ≤ 2 * a.value) (h₂ : a.value ≤ 2 * b.value) :
    ∃ d : Double, d.isFinite = true ∧ d.value = a.value - b.value := by
  rcases le_total b.value a.value with h | h
  · exact exists_double_eq_sub_of_le ha (by linarith) h h₂
  · obtain ⟨d, hd, hv⟩ := exists_double_eq_sub_of_le hb (by linarith) h h₁
    exact ⟨caml_neg_float d, by rwa [isFinite_caml_neg_float], by rw [value_caml_neg_float, hv]; ring⟩

namespace Rounding

/-- Sterbenz's lemma for `caml_sub_float`: when `y / 2 ≤ x ≤ 2 * y`, `x -. y` is the exact
difference, in every rounding direction. -/
theorem sub_exact (R : Rounding) {x y : Double} (hx : x.isFinite = true) (hy : y.isFinite = true)
    (h₁ : y.value ≤ 2 * x.value) (h₂ : x.value ≤ 2 * y.value) :
    (R.sub x y).isFinite = true ∧ (R.sub x y).value = x.value - y.value := by
  obtain ⟨d, hd, hv⟩ := exists_double_eq_sub hx hy h₁ h₂
  rw [R.sub_of_isFinite hx hy, ← sub_eq_add_neg]
  exact R.roundExact_exact_value hd _ hv

/-- `sub_exact` at `2.0 - 1.0`, rounding toward zero. -/
theorem sub_exact_two_one :
    two.isFinite = true ∧ one.isFinite = true ∧ one.value ≤ 2 * two.value ∧
    two.value ≤ 2 * one.value ∧ (towardZero.sub two one).isFinite = true ∧
    (towardZero.sub two one).value = two.value - one.value :=
  ⟨by decide, by decide, by rw [value_one, value_two]; norm_num,
    by rw [value_one, value_two]; norm_num,
    sub_exact _ (by decide) (by decide) (by rw [value_one, value_two]; norm_num)
      (by rw [value_one, value_two]; norm_num)⟩

/-- With gradual underflow, `x -. y == 0.0` exactly when `x == y`, for finite `x` and `y`, in
every rounding direction: an exact difference of zero rounds to a zero, and a nonzero one is at
least the least subnormal away from `0` and does not round to a zero. -/
theorem sub_eq_zero_iff_eq (R : Rounding) {x y : Double} (hx : x.isFinite = true)
    (hy : y.isFinite = true) : (R.sub x y).eq zero = x.eq y := by
  by_cases h : x.value = y.value
  · have hz : zero.isFinite = true := by decide
    obtain ⟨hf, hv⟩ := R.roundExact_exact_value hz (R.addSign x (caml_neg_float y))
      (show zero.value = x.value + -y.value by rw [value_zero, h, add_neg_cancel])
    rw [sub_of_isFinite hx hy, (eq_eq_true_iff_value hx hy).2 h, eq_eq_true_iff_value hf hz, hv,
      value_zero, h, add_neg_cancel]
  · rw [eq_eq_false_of_value_ne hx hy h]
    exact eq_zero_eq_false (R.sub_isZero_eq_false hx hy h)

/-- `sub_eq_zero_iff_eq` at `1.0` and `2.0`, rounding toward zero. -/
theorem sub_eq_zero_iff_eq_one_two :
    one.isFinite = true ∧ two.isFinite = true ∧
    (towardZero.sub one two).eq zero = one.eq two :=
  ⟨by decide, by decide, sub_eq_zero_iff_eq _ (by decide) (by decide)⟩

/-! ## Exact square roots -/

/-- `caml_sqrt_float` is exact, in every rounding direction, on a finite double that is the
square of a finite double `d`: it returns `|d|`. -/
theorem sqrt_exact (R : Rounding) {a d : Double} (ha : a.isFinite = true) (hd : d.isFinite = true)
    (h : a.value = d.value ^ 2) :
    (R.sqrt a).isFinite = true ∧ (R.sqrt a).value = |d.value| := by
  cases hz : a.isZero
  · have hpos : 0 < a.value := lt_of_le_of_ne (h ▸ sq_nonneg _)
      (fun e => by simp [(isZero_iff).2 e.symm] at hz)
    have habs : (caml_abs_float d).isFinite = true := by rwa [isFinite_caml_abs_float]
    have hv : (caml_abs_float d).value ^ 2 = a.value := by rw [value_caml_abs_float, sq_abs, h]
    rw [R.sqrt_of_pos ha hpos, ← value_caml_abs_float]
    exact R.rndSqrt_exact_value habs (by rw [value_caml_abs_float]; exact abs_nonneg _) hv
  · have h0 : d.value = 0 := (pow_eq_zero_iff two_ne_zero).1 (h ▸ value_of_isZero hz)
    have hs : R.sqrt a = a := by simp [sqrt, isNaN_of_isFinite ha, hz]
    rw [hs, value_of_isZero hz, h0, abs_zero]
    exact ⟨ha, rfl⟩

/-- `sqrt_exact` at `1.0`, rounding toward zero. -/
theorem sqrt_exact_one :
    one.isFinite = true ∧ one.value = one.value ^ 2 ∧ (towardZero.sqrt one).isFinite = true ∧
    (towardZero.sqrt one).value = |one.value| :=
  ⟨by decide, by rw [value_one]; norm_num,
    sqrt_exact _ (by decide) (by decide) (by rw [value_one]; norm_num)⟩

/-! ## The default rounding direction -/

/-- In the default direction an exact result is returned correctly rounded: an exact `0` is its
own nearest double, and any other result is `nearestRnd`'s. -/
lemma nearestEven_roundExact_nearest (s : Bool) (q : ℚ)
    (hr : (nearestEven.roundExact s q).isFinite = true) {d : Double} (hd : d.isFinite = true) :
    |(nearestEven.roundExact s q).value - q| ≤ |d.value - q| := by
  by_cases hq : q = 0
  · rw [(nearestEven.roundExact_exact_value (show zero.isFinite = true by decide) s
      (value_zero.trans hq.symm)).2, sub_self, abs_zero]
    exact abs_nonneg _
  · rw [nearestEven.roundExact_of_ne_zero hq] at hr ⊢
    exact nearestRnd_nearest _ hr hd

/-- In the default rounding direction, roundTiesToEven, `caml_add_float`, `caml_sub_float`,
`caml_mul_float` and `caml_div_float` on finite operands are correctly rounded: when the result
is finite, no finite double is nearer to the exact sum, difference, product or quotient. So is
`caml_sqrt_float` on a finite `a ≥ 0`: its result is finite, and `√a` lies on its side of the
midpoint with any other finite `d ≥ 0`, compared through squares. -/
theorem nearestEven_nearest {a b d : Double} (ha : a.isFinite = true) (hb : b.isFinite = true)
    (hd : d.isFinite = true) :
    ((nearestEven.add a b).isFinite = true →
      |(nearestEven.add a b).value - (a.value + b.value)| ≤ |d.value - (a.value + b.value)|) ∧
    ((nearestEven.sub a b).isFinite = true →
      |(nearestEven.sub a b).value - (a.value - b.value)| ≤ |d.value - (a.value - b.value)|) ∧
    ((nearestEven.mul a b).isFinite = true →
      |(nearestEven.mul a b).value - a.value * b.value| ≤ |d.value - a.value * b.value|) ∧
    (b.isZero = false → (nearestEven.div a b).isFinite = true →
      |(nearestEven.div a b).value - a.value / b.value| ≤ |d.value - a.value / b.value|) ∧
    (0 ≤ a.value → 0 ≤ d.value → (nearestEven.sqrt a).isFinite = true ∧
      (d.value < (nearestEven.sqrt a).value →
        ((d.value + (nearestEven.sqrt a).value) / 2) ^ 2 ≤ a.value) ∧
      ((nearestEven.sqrt a).value < d.value →
        a.value ≤ (((nearestEven.sqrt a).value + d.value) / 2) ^ 2)) := by
  refine ⟨fun h => ?_, fun h => ?_, fun h => ?_, fun hb₀ h => ?_, fun ha₀ hd₀ => ?_⟩
  · rw [add_of_isFinite ha hb] at h ⊢
    exact nearestEven_roundExact_nearest _ _ h hd
  · rw [sub_of_isFinite ha hb, ← sub_eq_add_neg] at h ⊢
    exact nearestEven_roundExact_nearest _ _ h hd
  · rw [mul_of_isFinite ha hb] at h ⊢
    exact nearestEven_roundExact_nearest _ _ h hd
  · rw [div_of_isFinite ha hb hb₀] at h ⊢
    exact nearestEven_roundExact_nearest _ _ h hd
  · cases hz : a.isZero
    · have hpos : 0 < a.value :=
        lt_of_le_of_ne ha₀ (fun e => by simp [(isZero_iff).2 e.symm] at hz)
      have h0 : zero.isFinite = true := by decide
      have hlo : zero.value ^ 2 ≤ a.value := by rw [value_zero, zero_pow two_ne_zero]; exact ha₀
      -- `√a` is at most `1` or at most `a`
      have hf : (nearestEven.rndSqrt a.value).isFinite = true := by
        rcases le_total a.value 1 with h | h
        · exact (nearestEven.rndSqrt_mem h0 (show one.isFinite = true by decide) value_zero.ge
            (by rw [value_one]; norm_num) hlo (by rw [value_one, one_pow]; exact h)).1
        · exact (nearestEven.rndSqrt_mem h0 ha value_zero.ge ha₀ hlo
            (le_self_pow₀ h two_ne_zero)).1
      rw [sqrt_of_pos ha hpos]
      exact ⟨hf, nearestSqrt_nearest ha₀ hf hd₀⟩
    · have hs : nearestEven.sqrt a = a := by simp [sqrt, isNaN_of_isFinite ha, hz]
      rw [hs, value_of_isZero hz]
      exact ⟨ha, fun h => absurd h (not_lt.2 hd₀), fun _ => by positivity⟩

/-- `nearestEven_nearest` at `1.0`, `1.0` and `1.0`. -/
theorem nearestEven_nearest_one :
    one.isFinite = true ∧
    ((nearestEven.add one one).isFinite = true →
      |(nearestEven.add one one).value - (one.value + one.value)| ≤
        |one.value - (one.value + one.value)|) ∧
    ((nearestEven.sub one one).isFinite = true →
      |(nearestEven.sub one one).value - (one.value - one.value)| ≤
        |one.value - (one.value - one.value)|) ∧
    ((nearestEven.mul one one).isFinite = true →
      |(nearestEven.mul one one).value - one.value * one.value| ≤
        |one.value - one.value * one.value|) ∧
    (one.isZero = false → (nearestEven.div one one).isFinite = true →
      |(nearestEven.div one one).value - one.value / one.value| ≤
        |one.value - one.value / one.value|) ∧
    (0 ≤ one.value → 0 ≤ one.value → (nearestEven.sqrt one).isFinite = true ∧
      (one.value < (nearestEven.sqrt one).value →
        ((one.value + (nearestEven.sqrt one).value) / 2) ^ 2 ≤ one.value) ∧
      ((nearestEven.sqrt one).value < one.value →
        one.value ≤ (((nearestEven.sqrt one).value + one.value) / 2) ^ 2)) :=
  ⟨by decide, nearestEven_nearest (by decide) (by decide) (by decide)⟩

/-- In the default rounding direction, rounding is symmetric about `0`, so negation commutes
with the arithmetic on finite operands under C's `==`: `-(x -. y) == y -. x`,
`-(x *. y) == (-x) *. y` and `-(x /. y) == (-x) /. y` (`y` not a zero). -/
theorem nearestEven_neg_symm {x y : Double} (hx : x.isFinite = true) (hy : y.isFinite = true) :
    (caml_neg_float (nearestEven.sub x y)).eq (nearestEven.sub y x) = true ∧
    (caml_neg_float (nearestEven.mul x y)).eq (nearestEven.mul (caml_neg_float x) y) = true ∧
    (y.isZero = false →
      (caml_neg_float (nearestEven.div x y)).eq (nearestEven.div (caml_neg_float x) y) = true) := by
  have hneg : ∀ (s s' : Bool) (q : ℚ),
      (caml_neg_float (nearestEven.roundExact s q)).eq (nearestEven.roundExact s' (-q)) = true :=
    fun s s' q => eq_eq_true.2 ⟨by rw [isNaN_caml_neg_float, isNaN_roundExact],
      isNaN_roundExact _ _ _, by
        rw [key_caml_neg_float, (roundExact_agree _ _ _).2.2, (roundExact_agree _ _ _).2.2]
        exact (key_nearestRnd_neg q).symm⟩
  have hx' : (caml_neg_float x).isFinite = true := by rwa [isFinite_caml_neg_float]
  refine ⟨?_, ?_, fun hy₀ => ?_⟩
  · rw [sub_of_isFinite hx hy, sub_of_isFinite hy hx,
      show y.value + -x.value = -(x.value + -y.value) by ring]
    exact hneg _ _ _
  · rw [mul_of_isFinite hx hy, mul_of_isFinite hx' hy, value_caml_neg_float, neg_mul]
    exact hneg _ _ _
  · rw [div_of_isFinite hx hy hy₀, div_of_isFinite hx' hy hy₀, value_caml_neg_float, neg_div]
    exact hneg _ _ _

/-- `nearestEven_neg_symm` at `1.0` and `2.0`. -/
theorem nearestEven_neg_symm_one_two :
    one.isFinite = true ∧ two.isFinite = true ∧
    (caml_neg_float (nearestEven.sub one two)).eq (nearestEven.sub two one) = true ∧
    (caml_neg_float (nearestEven.mul one two)).eq (nearestEven.mul (caml_neg_float one) two) =
      true ∧
    (two.isZero = false →
      (caml_neg_float (nearestEven.div one two)).eq (nearestEven.div (caml_neg_float one) two) =
        true) :=
  ⟨by decide, by decide, nearestEven_neg_symm (by decide) (by decide)⟩

end Rounding

end CamlFloats
