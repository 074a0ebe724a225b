import CamlFloats.Sign

/-!
# Rounding to binary64

C's arithmetic on doubles rounds the exact result of `+`, `-`, `*`, `/` or `sqrt` to a double
under the current rounding-direction attribute (IEEE 754-2008 §4.3, C99 Annex F).
`caml_hypot`, `caml_expm1`, `caml_log1p` and `caml_float_of_int` rely on nothing more about it,
so the direction is a parameter: `Rounding` bundles a rounding of rationals and of square roots
with the laws that all four directions obey. A rounded rational is never a NaN; rounding is
monotone in the value, an overflow to an infinity included; the value of a finite double rounds
to that double; and a square root rounds between the roundings of the rationals below and above
it. `Rounding` also carries what IEEE 754 leaves to the processor or ties to the direction: the
NaN returned for NaN operands and for an invalid operation, and the sign of an exact zero sum.

Every finite double is a whole number of units `2 ^ -1074`, the least subnormal (`value_eq`).
So a sum of doubles that is not exactly `0` is at least one unit away from `0`, and rounds to a
double that is not a zero (gradual underflow, §3.3): `Rounding.rnd_grid_ne_zero`.

`Rounding.towardZero` (roundTowardZero, §4.3.2) shows that the laws can all be met. It takes the
magnitude down to a finite double with `floorMag`: below `2 ^ 53` units every count is a double;
above, the significand keeps the top 53 bits and the exponent counts the bits dropped. Its NaNs
are x86-64's: the first NaN operand quieted (`x86NaN`), and `0xFFF8000000000000` for an invalid
operation.
-/

namespace CamlFloats

namespace Double

/-! ## Finite words, zeros and infinities -/

/-- C's `isfinite`: the exponent field is not all ones, so neither an infinity nor a NaN. -/
def isFinite (d : Double) : Bool := d.exponent ≠ 2047

/-- A zero of either sign: all magnitude bits clear. -/
def isZero (d : Double) : Bool := d.magnitude = 0

/-- The word with sign bit `s` and magnitude bits `M`. -/
def ofSignMagnitude (s : Bool) (M : Nat) : Double :=
  ⟨BitVec.ofNat 64 ((if s then 2 ^ 63 else 0) + M)⟩

/-- The infinity of sign `s`. -/
def inf (s : Bool) : Double := ofSignMagnitude s infMagnitude

/-- `+∞`. -/
def posInf : Double := ⟨0x7FF0000000000000#64⟩

/-- `-∞`. -/
def negInf : Double := ⟨0xFFF0000000000000#64⟩

/-- `-1.0`. -/
def minusOne : Double := ⟨0xBFF0000000000000#64⟩

/-- The largest finite double, `(2 - 2 ^ -52) × 2 ^ 1023`. -/
def maxFinite : Double := ⟨0x7FEFFFFFFFFFFFFF#64⟩

/-- The least subnormal, `2 ^ -1074`. -/
def leastSubnormal : Double := ⟨1#64⟩

/-- `-2 ^ -1074`. -/
def negLeastSubnormal : Double := ⟨0x8000000000000001#64⟩

lemma isFinite_iff (d : Double) : d.isFinite = true ↔ d.magnitude < infMagnitude := by
  have := d.magnitude_lt
  simp only [isFinite, exponent_eq, infMagnitude, ne_eq, decide_eq_true_eq]
  omega

lemma isNaN_of_isFinite {d : Double} (h : d.isFinite = true) : d.isNaN = false := by
  simp_all [isNaN, isFinite]

lemma isFinite_of_isZero {d : Double} (h : d.isZero = true) : d.isFinite = true := by
  simp only [isZero, decide_eq_true_eq] at h
  simp [isFinite_iff, h, infMagnitude]

/-- A finite word denotes its value. -/
lemma extValue_of_isFinite {d : Double} (h : d.isFinite = true) :
    d.extValue = (d.value : WithBot (WithTop ℚ)) := by
  simp_all [extValue, isFinite]

/-- A word that is not a NaN and not finite is an infinity: `⊤` or `⊥`. -/
lemma extValue_of_not_isFinite {d : Double} (h : d.isFinite = false) :
    d.extValue = if d.signBit then ⊥ else ⊤ := by
  simp_all [extValue, isFinite]

lemma value_of_isZero {d : Double} (h : d.isZero = true) : d.value = 0 := by
  simp only [isZero, decide_eq_true_eq] at h
  simp [value_eq_sign_mul, h, scaledOf_zero]

/-- A value that is not negative is the count of its magnitude bits' units. -/
lemma value_of_nonneg {d : Double} (h : 0 ≤ d.value) :
    d.value = scaledOf d.magnitude / 2 ^ 1074 := by
  rw [← abs_value, abs_of_nonneg h]

/-- A word is a zero exactly when its value is `0`. -/
lemma isZero_iff {d : Double} : d.isZero = true ↔ d.value = 0 := by
  refine ⟨value_of_isZero, fun h => ?_⟩
  rw [value_eq_sign_mul] at h
  have : scaledOf d.magnitude = 0 := by
    split at h <;> simpa using h
  simpa [isZero] using scaledOf_eq_zero.1 this

/-- A finite word's sign bit is set when its value is negative. -/
lemma signBit_of_value_neg {d : Double} (h : d.value < 0) : d.signBit = true := by
  rw [value_eq_sign_mul] at h
  by_contra hs
  simp only [hs, Bool.false_eq_true, if_false, one_mul] at h
  exact absurd h (not_lt.2 (by positivity))

/-- Between two finite words in the value order, a word that is not a NaN is finite. -/
lemma isFinite_of_between {lo hi d : Double} (hlo : lo.isFinite = true) (hhi : hi.isFinite = true)
    (h₁ : lo.extValue ≤ d.extValue) (h₂ : d.extValue ≤ hi.extValue) : d.isFinite = true := by
  rw [extValue_of_isFinite hlo] at h₁
  rw [extValue_of_isFinite hhi] at h₂
  cases hf : d.isFinite
  · rw [extValue_of_not_isFinite hf] at h₁ h₂
    cases hs : d.signBit <;> simp [hs] at h₁ h₂
  · rfl

lemma signBit_ofSignMagnitude (s : Bool) {M : Nat} (hM : M < 2 ^ 63) :
    (ofSignMagnitude s M).signBit = s :=
  (signBit_magnitude_ofNat s hM).1

lemma magnitude_ofSignMagnitude (s : Bool) {M : Nat} (hM : M < 2 ^ 63) :
    (ofSignMagnitude s M).magnitude = M :=
  (signBit_magnitude_ofNat s hM).2

@[simp] lemma isNaN_inf (s : Bool) : (inf s).isNaN = false := by cases s <;> decide

@[simp] lemma isFinite_inf (s : Bool) : (inf s).isFinite = false := by cases s <;> decide

@[simp] lemma isZero_inf (s : Bool) : (inf s).isZero = false := by cases s <;> decide

@[simp] lemma signBit_inf (s : Bool) : (inf s).signBit = s := by cases s <;> decide

lemma inf_false : inf false = posInf := by decide

lemma inf_true : inf true = negInf := by decide

/-- The signed zero `ofSignMagnitude s 0` is a zero of sign `s`. -/
@[simp] lemma isZero_ofSignMagnitude_zero (s : Bool) : (ofSignMagnitude s 0).isZero = true := by
  cases s <;> decide

@[simp] lemma isNaN_nan : nan.isNaN = true := by decide

@[simp] lemma isFinite_nan : nan.isFinite = false := by decide

@[simp] lemma isNaN_posInf : posInf.isNaN = false := by decide

@[simp] lemma isFinite_posInf : posInf.isFinite = false := by decide

@[simp] lemma isNaN_negInf : negInf.isNaN = false := by decide

@[simp] lemma isFinite_negInf : negInf.isFinite = false := by decide

@[simp] lemma signBit_negInf : negInf.signBit = true := by decide

lemma value_zero : zero.value = 0 := by
  simp [value_eq_sign_mul, zero, signBit, magnitude, scaledOf_zero]

lemma value_one : one.value = 1 := by
  rw [value_eq_sign_mul]
  norm_num [one, signBit, magnitude, scaledOf]

lemma value_two : two.value = 2 := by
  rw [value_eq_sign_mul]
  norm_num [two, signBit, magnitude, scaledOf]

lemma value_minusOne : minusOne.value = -1 := by
  rw [value_eq_sign_mul]
  norm_num [minusOne, signBit, magnitude, scaledOf]

end Double

/-! ## Rounding directions -/

open Double

/-- A rounding-direction attribute (IEEE 754-2008 §4.3), as C's arithmetic applies it to an
exact result: `rnd` rounds a rational and `rndSqrt` the square root of a nonnegative rational.
roundTiesToEven, roundTowardPositive, roundTowardNegative and roundTowardZero all obey these
laws, so what follows from them holds in every direction a program can select. With it go the
processor's NaNs and the direction's sign of an exact zero sum. -/
structure Rounding where
  /-- The double an exact rational result rounds to. -/
  rnd : ℚ → Double
  /-- The double the square root of a nonnegative rational rounds to. -/
  rndSqrt : ℚ → Double
  /-- The NaN an operation on `a` and `b` returns when one of them is a NaN (`a` twice for
  `sqrt`). IEEE 754 asks for a quiet NaN and recommends an operand's payload (§6.2.3); the
  processor chooses. -/
  nanOf : Double → Double → Double
  /-- The NaN an invalid operation returns (§7.2), the processor's default NaN. -/
  defaultNaN : Double
  /-- The sign of an exact zero sum of operands of opposite signs (§6.3): `-` (`true`) under
  roundTowardNegative, `+` in the other directions. -/
  zeroSumSign : Bool
  /-- A rounded result is never a NaN. -/
  rnd_not_isNaN (q : ℚ) : (rnd q).isNaN = false
  /-- Rounding is monotone in the value; an overflow rounds to an infinity of its sign or to the
  largest finite double. -/
  rnd_mono {p q : ℚ} : p ≤ q → (rnd p).extValue ≤ (rnd q).extValue
  /-- The value of a finite double rounds to that double (up to the sign of a zero). -/
  rnd_exact (d : Double) : d.isFinite = true → (rnd d.value).extValue = d.extValue
  /-- A rounded square root is never a NaN. -/
  rndSqrt_not_isNaN (v : ℚ) : (rndSqrt v).isNaN = false
  /-- `√v` rounds between the roundings of the rationals below and above `√v`. -/
  rndSqrt_bounds {v q : ℚ} : 0 ≤ v → 0 ≤ q →
    (q ^ 2 ≤ v → (rnd q).extValue ≤ (rndSqrt v).extValue) ∧
    (v ≤ q ^ 2 → (rndSqrt v).extValue ≤ (rnd q).extValue)
  /-- A NaN operand gives a NaN. -/
  nanOf_isNaN (a b : Double) : a.isNaN = true ∨ b.isNaN = true → (nanOf a b).isNaN = true
  /-- The default NaN is a NaN. -/
  defaultNaN_isNaN : defaultNaN.isNaN = true

namespace Rounding

variable (R : Rounding)

/-- At or above the value of a finite double, a rational rounds at or above that double. -/
lemma le_rnd {lo : Double} (hlo : lo.isFinite = true) {q : ℚ} (h : lo.value ≤ q) :
    lo.extValue ≤ (R.rnd q).extValue :=
  R.rnd_exact lo hlo ▸ R.rnd_mono h

/-- At or below the value of a finite double, a rational rounds at or below that double. -/
lemma rnd_le {hi : Double} (hhi : hi.isFinite = true) {q : ℚ} (h : q ≤ hi.value) :
    (R.rnd q).extValue ≤ hi.extValue :=
  R.rnd_exact hi hhi ▸ R.rnd_mono h

/-- A rational between the values of two finite doubles rounds to a finite double between
them. -/
lemma rnd_mem {lo hi : Double} (hlo : lo.isFinite = true) (hhi : hi.isFinite = true) {q : ℚ}
    (h₁ : lo.value ≤ q) (h₂ : q ≤ hi.value) :
    (R.rnd q).isFinite = true ∧ lo.value ≤ (R.rnd q).value ∧ (R.rnd q).value ≤ hi.value := by
  have hl := R.le_rnd hlo h₁
  have hh := R.rnd_le hhi h₂
  have hf := isFinite_of_between hlo hhi hl hh
  rw [extValue_of_isFinite hlo, extValue_of_isFinite hf] at hl
  rw [extValue_of_isFinite hhi, extValue_of_isFinite hf] at hh
  exact ⟨hf, by exact_mod_cast hl, by exact_mod_cast hh⟩

/-- A rational that is the value of a finite double rounds to a finite double of that value. -/
lemma rnd_exact_value {d : Double} (hd : d.isFinite = true) {q : ℚ} (hq : d.value = q) :
    (R.rnd q).isFinite = true ∧ (R.rnd q).value = q := by
  obtain ⟨hf, h₁, h₂⟩ := R.rnd_mem hd hd hq.le hq.ge
  exact ⟨hf, le_antisymm (hq ▸ h₂) (hq ▸ h₁)⟩

/-- The square root of a rational between the squares of two nonnegative finite doubles rounds
to a finite double between them. -/
lemma rndSqrt_mem {lo hi : Double} (hlo : lo.isFinite = true) (hhi : hi.isFinite = true)
    (hlo₀ : 0 ≤ lo.value) (hhi₀ : 0 ≤ hi.value) {v : ℚ} (h₁ : lo.value ^ 2 ≤ v)
    (h₂ : v ≤ hi.value ^ 2) :
    (R.rndSqrt v).isFinite = true ∧ lo.value ≤ (R.rndSqrt v).value ∧
      (R.rndSqrt v).value ≤ hi.value := by
  have hv : 0 ≤ v := (sq_nonneg _).trans h₁
  have hl := R.rnd_exact lo hlo ▸ (R.rndSqrt_bounds hv hlo₀).1 h₁
  have hh := R.rnd_exact hi hhi ▸ (R.rndSqrt_bounds hv hhi₀).2 h₂
  have hf := isFinite_of_between hlo hhi hl hh
  rw [extValue_of_isFinite hlo, extValue_of_isFinite hf] at hl
  rw [extValue_of_isFinite hhi, extValue_of_isFinite hf] at hh
  exact ⟨hf, by exact_mod_cast hl, by exact_mod_cast hh⟩

/-- The square of a finite double that is not negative has that double as its rounded square
root. -/
lemma rndSqrt_exact_value {d : Double} (hd : d.isFinite = true) (hd₀ : 0 ≤ d.value) {v : ℚ}
    (hv : d.value ^ 2 = v) : (R.rndSqrt v).isFinite = true ∧ (R.rndSqrt v).value = d.value := by
  obtain ⟨hf, h₁, h₂⟩ := R.rndSqrt_mem hd hd hd₀ hd₀ hv.le hv.ge
  exact ⟨hf, le_antisymm h₂ h₁⟩

lemma value_leastSubnormal : leastSubnormal.value = (2 ^ 1074 : ℚ)⁻¹ := by
  rw [value_eq_sign_mul]
  norm_num [leastSubnormal, signBit, magnitude, scaledOf]

lemma value_negLeastSubnormal : negLeastSubnormal.value = -(2 ^ 1074 : ℚ)⁻¹ := by
  rw [value_eq_sign_mul]
  norm_num [negLeastSubnormal, signBit, magnitude, scaledOf]

/-- A rational of at least one unit `2 ^ -1074` rounds to a positive value. -/
lemma rnd_pos {q : ℚ} (h : (2 ^ 1074 : ℚ)⁻¹ ≤ q) : 0 < (R.rnd q).extValue := by
  have hfin : leastSubnormal.isFinite = true := by decide
  have := R.le_rnd hfin (value_leastSubnormal ▸ h)
  rw [extValue_of_isFinite hfin, value_leastSubnormal] at this
  exact lt_of_lt_of_le (by exact_mod_cast (by positivity : (0 : ℚ) < (2 ^ 1074)⁻¹)) this

/-- A rational of at most minus one unit `2 ^ -1074` rounds to a negative value. -/
lemma rnd_neg {q : ℚ} (h : q ≤ -(2 ^ 1074 : ℚ)⁻¹) : (R.rnd q).extValue < 0 := by
  have hfin : negLeastSubnormal.isFinite = true := by decide
  have := R.rnd_le hfin (value_negLeastSubnormal ▸ h)
  rw [extValue_of_isFinite hfin, value_negLeastSubnormal] at this
  exact lt_of_le_of_lt this (by exact_mod_cast (by norm_num : -(2 ^ 1074 : ℚ)⁻¹ < 0))

/-- The sum of two doubles' values is a whole number of units `2 ^ -1074`. -/
lemma value_add_value (a b : Double) :
    a.value + b.value = ((signedScaled a.key + signedScaled b.key : ℤ) : ℚ) / 2 ^ 1074 := by
  rw [value_eq, value_eq]
  push_cast
  ring

/-- A whole number of units `2 ^ -1074` is `0` or at least one unit away from it. -/
lemma grid_cases (z : ℤ) :
    (z : ℚ) / 2 ^ 1074 = 0 ∨ (2 ^ 1074 : ℚ)⁻¹ ≤ z / 2 ^ 1074 ∨
      (z : ℚ) / 2 ^ 1074 ≤ -(2 ^ 1074 : ℚ)⁻¹ := by
  rcases lt_trichotomy z 0 with h | rfl | h
  · have : (z : ℚ) ≤ -1 := by exact_mod_cast (show z ≤ -1 by omega)
    rw [div_le_iff₀ (by positivity), neg_mul, inv_mul_cancel₀ (by positivity)]
    exact .inr (.inr this)
  · simp
  · have : (1 : ℚ) ≤ z := by exact_mod_cast (show 1 ≤ z by omega)
    rw [le_div_iff₀ (by positivity), inv_mul_cancel₀ (by positivity)]
    exact .inr (.inl this)

/-- A positive sum of two doubles' values rounds to a positive value: gradual underflow never
rounds a nonzero sum to a zero. -/
lemma rnd_add_pos {a b : Double} (h : 0 < a.value + b.value) :
    0 < (R.rnd (a.value + b.value)).extValue := by
  rw [value_add_value] at *
  rcases grid_cases (signedScaled a.key + signedScaled b.key) with h0 | hp | hn
  · exact absurd h0 h.ne'
  · exact R.rnd_pos hp
  · exact absurd (hn.trans (by norm_num)) (not_le.2 h)

/-- A negative sum of two doubles' values rounds to a negative value. -/
lemma rnd_add_neg {a b : Double} (h : a.value + b.value < 0) :
    (R.rnd (a.value + b.value)).extValue < 0 := by
  rw [value_add_value] at *
  rcases grid_cases (signedScaled a.key + signedScaled b.key) with h0 | hp | hn
  · exact absurd h0 h.ne
  · exact absurd ((by positivity : (0 : ℚ) < (2 ^ 1074)⁻¹).trans_le hp) (not_lt.2 h.le)
  · exact R.rnd_neg hn

end Rounding

/-! ## x86-64's NaNs -/

namespace Double

/-- The quiet NaN a processor makes of a NaN: bit 51, the first bit of the trailing significand,
set (§6.2.1). -/
def quiet (d : Double) : Double := ⟨d.bits ||| 0x0008000000000000#64⟩

/-- Setting bit 51 keeps the exponent field and makes the significand nonzero, so it keeps a
NaN a NaN. -/
lemma isNaN_quiet {d : Double} (h : d.isNaN = true) : d.quiet.isNaN = true := by
  have hb : d.quiet.bits.toNat = d.bits.toNat ||| 2 ^ 51 := by
    simp [quiet, BitVec.toNat_or]
  have he : d.quiet.exponent = d.exponent := by
    simp only [exponent, hb, ← Nat.shiftRight_eq_div_pow]
    congr 1
    refine Nat.eq_of_testBit_eq fun i => ?_
    simp only [Nat.testBit_shiftRight, Nat.testBit_or, Nat.testBit_two_pow,
      show 51 ≠ 52 + i by omega, decide_False, Bool.or_false]
  have hm : d.quiet.mantissa ≠ 0 := by
    intro h0
    have := congrArg (Nat.testBit · 51) h0
    simp only [mantissa, hb, Nat.testBit_mod_two_pow, Nat.testBit_or, Nat.testBit_two_pow] at this
    simp at this
  simp only [isNaN, Bool.and_eq_true, decide_eq_true_eq] at h ⊢
  exact ⟨he.trans h.1, hm⟩

end Double

/-- The NaN x86-64's SSE arithmetic returns for NaN operands: the first NaN operand, quieted. -/
def x86NaN (a b : Double) : Double := if a.isNaN then a.quiet else b.quiet

/-- x86-64's default NaN, `0xFFF8000000000000`: the sign bit and the first significand bit set. -/
def x86DefaultNaN : Double := ⟨0xFFF8000000000000#64⟩

lemma isNaN_x86NaN (a b : Double) (h : a.isNaN = true ∨ b.isNaN = true) :
    (x86NaN a b).isNaN = true := by
  unfold x86NaN
  split
  · exact isNaN_quiet ‹_›
  · exact isNaN_quiet (h.resolve_left ‹_›)

/-! ## Rounding toward zero -/

/-- The magnitude bits of the largest finite double whose absolute value is at most `n` units
`2 ^ -1074`: `n` itself below `2 ^ 53`; above, the top 53 bits of `n` as the significand, with the
number `s` of bits dropped giving the exponent field `s + 1`; the largest finite double once `n`
leaves the exponent range. -/
def floorMag (n : Nat) : Nat :=
  if n < 2 ^ 53 then n
  else if n.log2 - 52 < 2046 then (n.log2 - 52) * 2 ^ 52 + n / 2 ^ (n.log2 - 52)
  else infMagnitude - 1

/-- Magnitude bits with exponent field `e ≥ 1` and significand field `m` count `2 ^ 52 + m`
units `2 ^ (e - 1075)`. -/
lemma scaledOf_normal {e m : Nat} (he : 1 ≤ e) (hm : m < 2 ^ 52) :
    scaledOf (e * 2 ^ 52 + m) = (2 ^ 52 + m) * 2 ^ (e - 1) := by
  have h₁ : (e * 2 ^ 52 + m) / 2 ^ 52 = e := by omega
  have h₂ : (e * 2 ^ 52 + m) % 2 ^ 52 = m := by omega
  simp only [scaledOf, h₁, h₂, if_neg (by omega : e ≠ 0), show max e 1 = e by omega]

/-- Below `2 ^ 53`, magnitude bits count units `2 ^ -1074`: the subnormals and the first binade. -/
lemma scaledOf_of_lt {n : Nat} (h : n < 2 ^ 53) : scaledOf n = n := by
  unfold scaledOf
  rcases (show n / 2 ^ 52 = 0 ∨ n / 2 ^ 52 = 1 by omega) with h' | h' <;> rw [h'] <;> simp <;>
    omega

/-- `floorMag n` is finite, counts at most `n` units, and the next magnitude, if finite, counts
more than `n`. -/
lemma floorMag_spec (n : Nat) :
    floorMag n < infMagnitude ∧ scaledOf (floorMag n) ≤ n ∧
      (floorMag n + 1 < infMagnitude → n < scaledOf (floorMag n + 1)) := by
  unfold floorMag
  split_ifs with h₁ h₂
  · refine ⟨by simp only [infMagnitude]; omega, (scaledOf_of_lt h₁).le, fun _ => ?_⟩
    exact (Nat.lt_succ_self n).trans_le (scaledOf_strictMono.id_le (n + 1))
  · set s := n.log2 - 52
    have hn : n ≠ 0 := by omega
    have hL := (Nat.le_log2 hn).2 (show 2 ^ 53 ≤ n by omega)
    have hlo : 2 ^ 52 * 2 ^ s ≤ n := by
      rw [← pow_add, show 52 + s = n.log2 by omega]
      exact Nat.log2_self_le hn
    have hhi : n < 2 ^ 53 * 2 ^ s := by
      rw [← pow_add, show 53 + s = n.log2 + 1 by omega]
      exact Nat.lt_log2_self
    set t := n / 2 ^ s
    have ht₁ : 2 ^ 52 ≤ t := (Nat.le_div_iff_mul_le (by positivity)).2 hlo
    have ht₂ : t < 2 ^ 53 := (Nat.div_lt_iff_lt_mul (by positivity)).2 hhi
    have hsc : scaledOf (s * 2 ^ 52 + t) = t * 2 ^ s := by
      rw [show s * 2 ^ 52 + t = (s + 1) * 2 ^ 52 + (t - 2 ^ 52) by omega,
        scaledOf_normal (by omega) (by omega), Nat.add_sub_cancel' ht₁, Nat.add_sub_cancel]
    have hsc₁ : scaledOf (s * 2 ^ 52 + t + 1) = (t + 1) * 2 ^ s := by
      rcases (show t + 1 < 2 ^ 53 ∨ t + 1 = 2 ^ 53 by omega) with h | h
      · rw [show s * 2 ^ 52 + t + 1 = (s + 1) * 2 ^ 52 + (t + 1 - 2 ^ 52) by omega,
          scaledOf_normal (by omega) (by omega), Nat.add_sub_cancel' (by omega), Nat.add_sub_cancel]
      · rw [show s * 2 ^ 52 + t + 1 = (s + 2) * 2 ^ 52 + 0 by omega,
          scaledOf_normal (by omega) (by norm_num), h, show s + 2 - 1 = s + 1 by omega, pow_succ]
        ring
    refine ⟨by simp only [infMagnitude]; omega, ?_, fun _ => ?_⟩
    · rw [hsc]
      exact Nat.div_mul_le_self n _
    · rw [hsc₁, mul_comm]
      exact Nat.lt_mul_div_succ n (by positivity)
  · refine ⟨by simp [infMagnitude], ?_, fun h => absurd h (by omega)⟩
    have hn : n ≠ 0 := by omega
    calc scaledOf (infMagnitude - 1) ≤ 2 ^ 2098 := by norm_num [scaledOf, infMagnitude]
      _ ≤ 2 ^ n.log2 := Nat.pow_le_pow_right (by norm_num) (by omega)
      _ ≤ n := Nat.log2_self_le hn

lemma floorMag_mono : Monotone floorMag := by
  intro n n' h
  by_contra hlt
  obtain ⟨h₁, h₂, -⟩ := floorMag_spec n
  obtain ⟨-, -, h₃⟩ := floorMag_spec n'
  have := h₃ (by omega)
  have := scaledOf_strictMono.monotone (show floorMag n' + 1 ≤ floorMag n by omega)
  omega

/-- A finite magnitude's own count of units rounds down to it. -/
lemma floorMag_scaledOf {M : Nat} (hM : M < infMagnitude) : floorMag (scaledOf M) = M := by
  obtain ⟨-, h₂, h₃⟩ := floorMag_spec (scaledOf M)
  refine le_antisymm (scaledOf_strictMono.le_iff_le.1 h₂) (not_lt.1 fun hlt => ?_)
  have := h₃ (by omega)
  have := scaledOf_strictMono.monotone (show floorMag (scaledOf M) + 1 ≤ M by omega)
  omega

/-- roundTowardZero (§4.3.2): the magnitude of `q`, in units `2 ^ -1074`, rounds down to a finite
double, under the sign of `q`. -/
def towardZeroRnd (q : ℚ) : Double :=
  ofSignMagnitude (decide (q < 0)) (floorMag ⌊|q| * 2 ^ 1074⌋₊)

/-- The square root of `v` rounded toward zero: `Nat.sqrt` of `v` in units `2 ^ -2148` is the
square root in units `2 ^ -1074`, rounded down. -/
def towardZeroSqrt (v : ℚ) : Double :=
  towardZeroRnd (Nat.sqrt ⌊v * 2 ^ 2148⌋₊ / 2 ^ 1074)

/-- The absolute value rounding toward zero keeps of `x ≥ 0`. -/
def towardZeroAbs (x : ℚ) : ℚ := scaledOf (floorMag ⌊x * 2 ^ 1074⌋₊) / 2 ^ 1074

/-- What rounding toward zero keeps depends only on the whole units of `x`. -/
lemma towardZeroAbs_le {x y : ℚ} (h : ⌊x * 2 ^ 1074⌋₊ ≤ ⌊y * 2 ^ 1074⌋₊) :
    towardZeroAbs x ≤ towardZeroAbs y :=
  div_le_div_of_nonneg_right (Nat.mono_cast (scaledOf_strictMono.monotone (floorMag_mono h)))
    (by positivity)

lemma towardZeroAbs_mono : Monotone towardZeroAbs := fun _ _ h =>
  towardZeroAbs_le (Nat.floor_mono (mul_le_mul_of_nonneg_right h (by positivity)))

lemma towardZeroAbs_nonneg (x : ℚ) : 0 ≤ towardZeroAbs x := by
  unfold towardZeroAbs
  positivity

/-- `towardZeroRnd q` is finite, and its value is what rounding toward zero keeps of `|q|`, under
the sign of `q`. -/
lemma towardZeroRnd_spec (q : ℚ) :
    (towardZeroRnd q).isFinite = true ∧
      (towardZeroRnd q).value = (if q < 0 then -1 else 1) * towardZeroAbs |q| := by
  have hM := (floorMag_spec ⌊|q| * 2 ^ 1074⌋₊).1
  have hM' : floorMag ⌊|q| * 2 ^ 1074⌋₊ < 2 ^ 63 := hM.trans (by decide)
  refine ⟨by rw [isFinite_iff, towardZeroRnd, magnitude_ofSignMagnitude _ hM']; exact hM, ?_⟩
  rw [value_eq_sign_mul, towardZeroRnd, signBit_ofSignMagnitude _ hM',
    magnitude_ofSignMagnitude _ hM', towardZeroAbs]
  simp only [decide_eq_true_eq]

lemma towardZeroRnd_extValue (q : ℚ) :
    (towardZeroRnd q).extValue =
      (((if q < 0 then -1 else 1) * towardZeroAbs |q| : ℚ) : WithBot (WithTop ℚ)) := by
  rw [extValue_of_isFinite (towardZeroRnd_spec q).1, (towardZeroRnd_spec q).2]

/-- Rounding toward zero is monotone: the kept magnitude grows with `|q|`, under each sign. -/
lemma towardZeroRnd_mono {p q : ℚ} (h : p ≤ q) :
    (towardZeroRnd p).extValue ≤ (towardZeroRnd q).extValue := by
  rw [towardZeroRnd_extValue, towardZeroRnd_extValue, WithBot.coe_le_coe, WithTop.coe_le_coe]
  have hp := towardZeroAbs_nonneg |p|
  have hq := towardZeroAbs_nonneg |q|
  by_cases hq0 : q < 0
  · have hp0 : p < 0 := h.trans_lt hq0
    have := towardZeroAbs_mono (show |q| ≤ |p| by rw [abs_of_neg hp0, abs_of_neg hq0]; linarith)
    simp only [hp0, hq0, if_true]
    linarith
  · by_cases hp0 : p < 0
    · simp only [hp0, hq0, if_true, if_false]
      linarith
    · have := towardZeroAbs_mono (show |p| ≤ |q| by
        rw [abs_of_nonneg (not_lt.1 hp0), abs_of_nonneg (not_lt.1 hq0)]; exact h)
      simp only [hp0, hq0, if_false]
      linarith

/-- Rounding toward zero returns the value of a finite double as that double. -/
lemma towardZeroRnd_exact (d : Double) (hd : d.isFinite = true) :
    (towardZeroRnd d.value).extValue = d.extValue := by
  have hS : towardZeroAbs |d.value| = scaledOf d.magnitude / 2 ^ 1074 := by
    rw [towardZeroAbs, abs_value, div_mul_cancel₀ _ (by positivity), Nat.floor_natCast,
      floorMag_scaledOf ((isFinite_iff d).1 hd)]
  rw [towardZeroRnd_extValue, extValue_of_isFinite hd, hS]
  congr 2
  rw [value_eq_sign_mul]
  have h0 : (0 : ℚ) ≤ scaledOf d.magnitude / 2 ^ 1074 := by positivity
  rcases h0.eq_or_lt with h | h
  · simp [← h]
  · cases d.signBit <;> simp [h, h.le, not_lt.2 h.le]

/-- `√v` rounded toward zero lies between the roundings toward zero of the rationals below and
above `√v`: `Nat.sqrt` is the floor of the square root. -/
lemma towardZeroSqrt_bounds {v q : ℚ} (hv : 0 ≤ v) (hq : 0 ≤ q) :
    (q ^ 2 ≤ v → (towardZeroRnd q).extValue ≤ (towardZeroSqrt v).extValue) ∧
    (v ≤ q ^ 2 → (towardZeroSqrt v).extValue ≤ (towardZeroRnd q).extValue) := by
  have hval : ∀ x : ℚ, 0 ≤ x → (towardZeroRnd x).extValue =
      ((towardZeroAbs x : ℚ) : WithBot (WithTop ℚ)) := fun x hx => by
    rw [towardZeroRnd_extValue, abs_of_nonneg hx, if_neg (not_lt.2 hx), one_mul]
  unfold towardZeroSqrt
  set s := Nat.sqrt ⌊v * 2 ^ 2148⌋₊
  have hfs : ⌊(s / 2 ^ 1074 : ℚ) * 2 ^ 1074⌋₊ = s := by
    rw [div_mul_cancel₀ _ (by positivity), Nat.floor_natCast]
  have hq' : 0 ≤ q * 2 ^ 1074 := by positivity
  have hsq : q ^ 2 * 2 ^ 2148 = (q * 2 ^ 1074) ^ 2 := by ring
  rw [hval q hq, hval _ (by positivity), WithBot.coe_le_coe, WithBot.coe_le_coe,
    WithTop.coe_le_coe, WithTop.coe_le_coe]
  refine ⟨fun h => towardZeroAbs_le ?_, fun h => towardZeroAbs_le ?_⟩ <;> rw [hfs]
  · refine Nat.le_sqrt.2 (Nat.le_floor ?_)
    have hk : (⌊q * 2 ^ 1074⌋₊ : ℚ) ≤ q * 2 ^ 1074 := Nat.floor_le hq'
    push_cast
    calc (⌊q * 2 ^ 1074⌋₊ : ℚ) * ⌊q * 2 ^ 1074⌋₊ ≤ (q * 2 ^ 1074) ^ 2 := by
          rw [sq]; exact mul_le_mul hk hk (by positivity) hq'
      _ = q ^ 2 * 2 ^ 2148 := hsq.symm
      _ ≤ v * 2 ^ 2148 := mul_le_mul_of_nonneg_right h (by positivity)
  · refine Nat.le_floor (le_of_pow_le_pow_left₀ two_ne_zero hq' ?_)
    calc (s : ℚ) ^ 2 ≤ ⌊v * 2 ^ 2148⌋₊ := by
          rw [← Nat.cast_pow]; exact Nat.cast_le.2 (Nat.sqrt_le' _)
      _ ≤ v * 2 ^ 2148 := Nat.floor_le (by positivity)
      _ ≤ q ^ 2 * 2 ^ 2148 := mul_le_mul_of_nonneg_right h (by positivity)
      _ = (q * 2 ^ 1074) ^ 2 := hsq

/-- Rounding toward zero, IEEE 754's roundTowardZero, with x86-64's NaNs: the laws of a rounding
hold. -/
def Rounding.towardZero : Rounding where
  rnd := towardZeroRnd
  rndSqrt := towardZeroSqrt
  nanOf := x86NaN
  defaultNaN := x86DefaultNaN
  zeroSumSign := false
  rnd_not_isNaN q := isNaN_of_isFinite (towardZeroRnd_spec q).1
  rnd_mono := towardZeroRnd_mono
  rnd_exact := towardZeroRnd_exact
  rndSqrt_not_isNaN _ := isNaN_of_isFinite (towardZeroRnd_spec _).1
  rndSqrt_bounds := towardZeroSqrt_bounds
  nanOf_isNaN := isNaN_x86NaN
  defaultNaN_isNaN := by decide

end CamlFloats
