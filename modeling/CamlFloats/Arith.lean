import CamlFloats.Rounding
import CamlFloats.Ints

/-!
# C's arithmetic on doubles

`caml_add_float`, `caml_sub_float`, `caml_mul_float`, `caml_div_float` and `caml_sqrt_float`
return C's `+`, `-`, `*`, `/` and `sqrt` of their unboxed operands, and the fallbacks
`caml_hypot`, `caml_expm1` and `caml_log1p` compute with the same operations. Under IEEE 754
(C99 Annex F) each is the exact operation rounded in the current direction (§5.4.1), with the
special cases of §6.1 and §7.2:

* a NaN operand gives a NaN, the one the processor makes of the operands (`Rounding.nanOf`);
* `∞ - ∞`, `0 × ∞`, `0 / 0`, `∞ / ∞` and the square root of a number below zero are invalid and
  give the processor's default NaN (`Rounding.defaultNaN`);
* otherwise an infinite operand or a zero divisor gives an infinity, and an infinite divisor a
  zero, of the sign the operands' signs give;
* an exact result of `0` from finite operands is a zero of the sign §6.3 gives it
  (`Rounding.roundExact`): the signs' exclusive or for `*` and `/`, and for `+` the operands'
  common sign, or `Rounding.zeroSumSign` when they differ.

`caml_float_of_int` converts an OCaml int with C's `(double)`, which rounds (C99 6.3.1.4), and
gives `+0` for `0`. Every int of magnitude at most `2 ^ 53` is a double, so for those the
conversion is exact and `caml_int_of_float` gives the int back (`caml_int_of_float_of_int`).
-/

namespace CamlFloats

open Double

namespace Double

lemma isFinite_eq_false_of_isNaN {d : Double} (h : d.isNaN = true) : d.isFinite = false := by
  cases hf : d.isFinite
  · rfl
  · simp [isNaN_of_isFinite hf] at h

lemma isZero_eq_false_of_not_isFinite {d : Double} (h : d.isFinite = false) :
    d.isZero = false := by
  cases hz : d.isZero
  · rfl
  · simp [isFinite_of_isZero hz] at h

/-- A word of negative value has its sign bit set and is not a zero. -/
lemma sign_of_value_neg {d : Double} (h : d.value < 0) : d.signBit = true ∧ d.isZero = false :=
  ⟨signBit_of_value_neg h, by
    cases hz : d.isZero
    · rfl
    · simp [value_of_isZero hz] at h⟩

/-- A word that denotes a negative value has its sign bit set and is not a
zero. -/
lemma signBit_of_extValue_neg {d : Double} (h : d.extValue < 0) :
    d.signBit = true ∧ d.isZero = false := by
  cases hf : d.isFinite
  · rw [extValue_of_not_isFinite hf] at h
    refine ⟨?_, isZero_eq_false_of_not_isFinite hf⟩
    cases hs : d.signBit <;> simp_all
  · rw [extValue_of_isFinite hf] at h
    exact sign_of_value_neg (by exact_mod_cast h)

/-- A finite word that denotes a positive value has its sign bit clear and is not a zero. -/
lemma signBit_of_value_pos {d : Double} (h : 0 < d.value) :
    d.signBit = false ∧ d.isZero = false := by
  refine ⟨?_, ?_⟩
  · cases hs : d.signBit
    · rfl
    · rw [value_eq_sign_mul, hs] at h
      simp only [if_true, neg_one_mul, neg_pos] at h
      exact absurd h (not_lt.2 (by positivity))
  · cases hz : d.isZero
    · rfl
    · simp [value_of_isZero hz] at h

lemma isFinite_caml_neg_float (d : Double) : (caml_neg_float d).isFinite = d.isFinite := by
  simp only [isFinite, exponent_eq, magnitude_caml_neg_float]

@[simp] lemma isNaN_ofSignMagnitude_zero (s : Bool) : (ofSignMagnitude s 0).isNaN = false := by
  cases s <;> decide

lemma key_of_isZero {d : Double} (h : d.isZero = true) : d.key = 0 := by
  simp only [isZero, decide_eq_true_eq] at h
  simp [key, h]

@[simp] lemma value_caml_neg_float (d : Double) : (caml_neg_float d).value = -d.value := by
  simp only [value_eq_sign_mul, signBit_caml_neg_float, magnitude_caml_neg_float]
  cases d.signBit <;> simp

lemma natAbs_key (d : Double) : d.key.natAbs = d.magnitude := by
  unfold key
  split <;> simp

/-- Words that C's `==` finds equal are both finite or both not. -/
lemma isFinite_eq_of_eq {a b : Double} (h : a.eq b = true) : a.isFinite = b.isFinite := by
  have hm : a.magnitude = b.magnitude := by rw [← natAbs_key, ← natAbs_key, (eq_eq_true.1 h).2.2]
  rw [Bool.eq_iff_iff, isFinite_iff, isFinite_iff, hm]

lemma eq_eq_true_iff_value {a b : Double} (ha : a.isFinite = true) (hb : b.isFinite = true) :
    a.eq b = true ↔ a.value = b.value := by
  rw [eq_eq_true, ← extValue_eq_iff (isNaN_of_isFinite ha) (isNaN_of_isFinite hb),
    extValue_of_isFinite ha, extValue_of_isFinite hb]
  simp [isNaN_of_isFinite ha, isNaN_of_isFinite hb]

/-- Words that denote different values are not equal to C's `==`. -/
lemma eq_eq_false_of_extValue_ne {a b : Double} (h : a.extValue ≠ b.extValue) : a.eq b = false := by
  cases hab : a.eq b
  · rfl
  · obtain ⟨ha, hb, hk⟩ := eq_eq_true.1 hab
    exact absurd ((extValue_eq_iff ha hb).2 hk) h

lemma isZero_eq_false_of_extValue_ne {d : Double} (h : d.extValue ≠ 0) : d.isZero = false := by
  cases hz : d.isZero
  · rfl
  · rw [extValue_of_isFinite (isFinite_of_isZero hz), value_of_isZero hz] at h
    simp at h

lemma eq_eq_false_of_value_ne {a b : Double} (ha : a.isFinite = true) (hb : b.isFinite = true)
    (h : a.value ≠ b.value) : a.eq b = false := by
  rw [Bool.eq_false_iff, ne_eq, eq_eq_true_iff_value ha hb]
  exact h

/-- A word that is not a zero is not equal to `0.0` under C's `==`. -/
lemma eq_zero_eq_false {a : Double} (ha : a.isZero = false) : a.eq zero = false := by
  cases h : a.eq zero
  · rfl
  · have hf := isFinite_eq_of_eq h
    rw [show zero.isFinite = true by decide] at hf
    rw [eq_eq_true_iff_value hf (by decide), value_zero, ← isZero_iff] at h
    simp [h] at ha

lemma lt_eq_true_iff_value {a b : Double} (ha : a.isFinite = true) (hb : b.isFinite = true) :
    a.lt b = true ↔ a.value < b.value := by
  rw [lt_eq_true, ← extValue_lt_iff (isNaN_of_isFinite ha) (isNaN_of_isFinite hb),
    extValue_of_isFinite ha, extValue_of_isFinite hb]
  simp [isNaN_of_isFinite ha, isNaN_of_isFinite hb]

lemma isFinite_caml_abs_float (d : Double) : (caml_abs_float d).isFinite = d.isFinite := by
  simp only [isFinite, exponent_eq, magnitude_caml_abs_float]

lemma value_caml_abs_float (d : Double) : (caml_abs_float d).value = |d.value| := by
  rw [value_eq_sign_mul, signBit_caml_abs_float, magnitude_caml_abs_float, abs_value]
  simp

/-- No finite double exceeds the largest one. -/
lemma value_le_maxFinite {d : Double} (hd : d.isFinite = true) : d.value ≤ maxFinite.value := by
  have hm : maxFinite.isFinite = true := by decide
  have hk : d.key ≤ maxFinite.key := by
    have := (isFinite_iff d).1 hd
    rw [show maxFinite.key = infMagnitude - 1 by decide]
    unfold key infMagnitude at *
    split <;> omega
  have := (extValue_le_iff (isNaN_of_isFinite hd) (isNaN_of_isFinite hm)).2 hk
  rw [extValue_of_isFinite hd, extValue_of_isFinite hm] at this
  exact_mod_cast this

/-- The absolute value of an infinity is `+∞`. -/
lemma caml_abs_float_of_not_isFinite {d : Double} (hd : d.isNaN = false)
    (hd' : d.isFinite = false) : caml_abs_float d = posInf := by
  have hm := (magnitude_le_inf hd).2.1 (by simpa [isFinite] using hd')
  simp only [caml_abs_float, hm]
  decide

end Double

/-! ## The operations -/

namespace Rounding

variable (R : Rounding)

/-- The double an operation on finite operands returns for its exact result `q`: `q` rounded,
except that an exact `0` is the zero of sign `s` that §6.3 gives the operation. -/
def roundExact (s : Bool) (q : ℚ) : Double := if q = 0 then ofSignMagnitude s 0 else R.rnd q

/-- The sign of `a + b` when the sum is exactly `0` (§6.3): the operands' sign when they share it,
and the direction's `zeroSumSign` when they differ. -/
def addSign (a b : Double) : Bool := if a.signBit = b.signBit then a.signBit else R.zeroSumSign

/-- `a + b` (§5.4.1, §6.1, §6.3, §7.2). -/
def add (a b : Double) : Double :=
  if a.isNaN || b.isNaN then R.nanOf a b
  else if !a.isFinite then (if !b.isFinite && a.signBit != b.signBit then R.defaultNaN else a)
  else if !b.isFinite then b
  else R.roundExact (R.addSign a b) (a.value + b.value)

/-- `a - b`, which IEEE 754 defines as `a + (-b)` (§5.4.1). -/
def sub (a b : Double) : Double := R.add a (caml_neg_float b)

/-- `a * b` (§5.4.1, §6.1, §6.3, §7.2). -/
def mul (a b : Double) : Double :=
  if a.isNaN || b.isNaN then R.nanOf a b
  else if !a.isFinite || !b.isFinite then
    (if a.isZero || b.isZero then R.defaultNaN else inf (a.signBit != b.signBit))
  else R.roundExact (a.signBit != b.signBit) (a.value * b.value)

/-- `a / b` (§5.4.1, §6.1, §6.3, §7.2). -/
def div (a b : Double) : Double :=
  if a.isNaN || b.isNaN then R.nanOf a b
  else if !a.isFinite then (if !b.isFinite then R.defaultNaN else inf (a.signBit != b.signBit))
  else if !b.isFinite then ofSignMagnitude (a.signBit != b.signBit) 0
  else if b.isZero then (if a.isZero then R.defaultNaN else inf (a.signBit != b.signBit))
  else R.roundExact (a.signBit != b.signBit) (a.value / b.value)

/-- `sqrt(a)` (§5.4.1, §7.2): `±0` and `+∞` are their own square roots, and a number below zero
has none. -/
def sqrt (a : Double) : Double :=
  if a.isNaN then R.nanOf a a
  else if a.signBit && !a.isZero then R.defaultNaN
  else if a.isZero || !a.isFinite then a
  else R.rndSqrt a.value

/-- C's arithmetic in the direction `R`, as `caml_hypot` calls it. -/
def ops : FloatOps := ⟨R.add, R.mul, R.div, R.sqrt⟩

/-! ## Exact results -/

@[simp] lemma isNaN_roundExact (s : Bool) (q : ℚ) : (R.roundExact s q).isNaN = false := by
  unfold roundExact
  split
  · exact isNaN_ofSignMagnitude_zero s
  · exact R.rnd_not_isNaN q

lemma roundExact_zero (s : Bool) : R.roundExact s 0 = ofSignMagnitude s 0 := if_pos rfl

lemma roundExact_of_ne_zero {s : Bool} {q : ℚ} (h : q ≠ 0) : R.roundExact s q = R.rnd q := if_neg h

/-- `0` rounds to a finite zero. -/
lemma rnd_zero : (R.rnd 0).isFinite = true ∧ (R.rnd 0).value = 0 :=
  R.rnd_exact_value (show zero.isFinite = true by decide) value_zero

/-- `roundExact` and `rnd` differ at most in the sign of a zero: they are finite together and
have the same value and key. -/
lemma roundExact_agree (s : Bool) (q : ℚ) :
    (R.roundExact s q).isFinite = (R.rnd q).isFinite ∧
    (R.roundExact s q).value = (R.rnd q).value ∧ (R.roundExact s q).key = (R.rnd q).key := by
  by_cases hq : q = 0
  · obtain ⟨hf, hv⟩ := R.rnd_zero
    have hz := isZero_ofSignMagnitude_zero s
    rw [hq, roundExact_zero, hf, isFinite_of_isZero hz, value_of_isZero hz, hv, key_of_isZero hz,
      key_of_isZero (isZero_iff.2 hv)]
    exact ⟨rfl, rfl, rfl⟩
  · rw [R.roundExact_of_ne_zero hq]
    exact ⟨rfl, rfl, rfl⟩

lemma extValue_roundExact (s : Bool) (q : ℚ) :
    (R.roundExact s q).extValue = (R.rnd q).extValue := by
  by_cases hq : q = 0
  · obtain ⟨hf, hv, -⟩ := R.roundExact_agree s q
    rw [extValue_of_isFinite (hf.trans (hq ▸ R.rnd_zero.1)), hv,
      extValue_of_isFinite (hq ▸ R.rnd_zero.1)]
  · rw [R.roundExact_of_ne_zero hq]

/-- A rational between the values of two finite doubles is returned as a finite double between
them. -/
lemma roundExact_mem {lo hi : Double} (hlo : lo.isFinite = true) (hhi : hi.isFinite = true)
    (s : Bool) {q : ℚ} (h₁ : lo.value ≤ q) (h₂ : q ≤ hi.value) :
    (R.roundExact s q).isFinite = true ∧ lo.value ≤ (R.roundExact s q).value ∧
      (R.roundExact s q).value ≤ hi.value := by
  obtain ⟨hf, hv, -⟩ := R.roundExact_agree s q
  rw [hf, hv]
  exact R.rnd_mem hlo hhi h₁ h₂

/-- A rational that is the value of a finite double is returned exactly. -/
lemma roundExact_exact_value {d : Double} (hd : d.isFinite = true) (s : Bool) {q : ℚ}
    (hq : d.value = q) : (R.roundExact s q).isFinite = true ∧ (R.roundExact s q).value = q := by
  obtain ⟨hf, hv, -⟩ := R.roundExact_agree s q
  rw [hf, hv]
  exact R.rnd_exact_value hd hq

lemma addSign_comm (a b : Double) : R.addSign a b = R.addSign b a := by
  unfold addSign
  split_ifs with h₁ h₂ <;> simp_all

/-! ## When the result is a NaN -/

@[simp] lemma isNaN_add (a b : Double) :
    (R.add a b).isNaN =
      (a.isNaN || b.isNaN || (!a.isFinite && !b.isFinite && a.signBit != b.signBit)) := by
  unfold add
  split_ifs with h
  · rw [R.nanOf_isNaN a b (by simpa using h), h, Bool.true_or]
  all_goals simp_all [R.defaultNaN_isNaN]

@[simp] lemma isNaN_mul (a b : Double) :
    (R.mul a b).isNaN =
      (a.isNaN || b.isNaN || ((!a.isFinite || !b.isFinite) && (a.isZero || b.isZero))) := by
  unfold mul
  split_ifs with h
  · rw [R.nanOf_isNaN a b (by simpa using h), h, Bool.true_or]
  all_goals simp_all [R.defaultNaN_isNaN]

@[simp] lemma isNaN_div (a b : Double) :
    (R.div a b).isNaN =
      (a.isNaN || b.isNaN || (!a.isFinite && !b.isFinite) || (a.isZero && b.isZero)) := by
  unfold div
  split_ifs with h
  · rw [R.nanOf_isNaN a b (by simpa using h), h, Bool.true_or, Bool.true_or]
  all_goals simp_all [R.defaultNaN_isNaN, isZero_eq_false_of_not_isFinite]

@[simp] lemma isNaN_sqrt (a : Double) :
    (R.sqrt a).isNaN = (a.isNaN || (a.signBit && !a.isZero)) := by
  unfold sqrt
  split_ifs with h
  · rw [R.nanOf_isNaN a a (.inl h), h, Bool.true_or]
  all_goals simp_all [R.defaultNaN_isNaN, R.rndSqrt_not_isNaN]

/-- C's `==` finds the rounded value of a finite double equal to that double. -/
lemma rnd_eq_self {d : Double} (hd : d.isFinite = true) : (R.rnd d.value).eq d = true := by
  rw [eq_eq_true, ← extValue_eq_iff (R.rnd_not_isNaN _) (isNaN_of_isFinite hd)]
  exact ⟨R.rnd_not_isNaN _, isNaN_of_isFinite hd, R.rnd_exact d hd⟩

/-! ## Finite operands -/

variable {R} {a b : Double}

lemma add_of_isFinite (ha : a.isFinite = true) (hb : b.isFinite = true) :
    R.add a b = R.roundExact (R.addSign a b) (a.value + b.value) := by
  simp [add, isNaN_of_isFinite ha, isNaN_of_isFinite hb, ha, hb]

lemma sub_of_isFinite (ha : a.isFinite = true) (hb : b.isFinite = true) :
    R.sub a b = R.roundExact (R.addSign a (caml_neg_float b)) (a.value + -b.value) := by
  rw [sub, add_of_isFinite ha (by rwa [isFinite_caml_neg_float]), value_caml_neg_float]

lemma mul_of_isFinite (ha : a.isFinite = true) (hb : b.isFinite = true) :
    R.mul a b = R.roundExact (a.signBit != b.signBit) (a.value * b.value) := by
  simp [mul, isNaN_of_isFinite ha, isNaN_of_isFinite hb, ha, hb]

lemma div_of_isFinite (ha : a.isFinite = true) (hb : b.isFinite = true) (hb₀ : b.isZero = false) :
    R.div a b = R.roundExact (a.signBit != b.signBit) (a.value / b.value) := by
  simp [div, isNaN_of_isFinite ha, isNaN_of_isFinite hb, ha, hb, hb₀]

lemma sqrt_of_pos (ha : a.isFinite = true) (h : 0 < a.value) : R.sqrt a = R.rndSqrt a.value := by
  obtain ⟨hs, hz⟩ := signBit_of_value_pos h
  simp [sqrt, isNaN_of_isFinite ha, ha, hs, hz]

/-- The difference of two finite doubles of different values is not a zero, in every direction:
the exact difference is at least the least subnormal away from `0` (gradual underflow). -/
lemma sub_isZero_eq_false (ha : a.isFinite = true) (hb : b.isFinite = true)
    (h : a.value ≠ b.value) : (R.sub a b).isZero = false := by
  have hne : a.value + (caml_neg_float b).value ≠ 0 := by
    rw [value_caml_neg_float, ← sub_eq_add_neg]
    exact sub_ne_zero.2 h
  rw [sub, add_of_isFinite ha (by rwa [isFinite_caml_neg_float]), R.roundExact_of_ne_zero hne]
  refine isZero_eq_false_of_extValue_ne ?_
  rcases hne.lt_or_lt with hlt | hlt
  · exact (R.rnd_add_neg hlt).ne
  · exact (R.rnd_add_pos hlt).ne'

/-! ## Infinite operands -/

lemma add_of_not_isFinite_left (ha : a.isNaN = false) (ha' : a.isFinite = false)
    (hb : b.isFinite = true) : R.add a b = a := by
  simp [add, ha, ha', hb, isNaN_of_isFinite hb]

lemma add_of_not_isFinite_right (ha : a.isFinite = true) (hb : b.isNaN = false)
    (hb' : b.isFinite = false) : R.add a b = b := by
  simp [add, ha, hb, hb', isNaN_of_isFinite ha]

/-- A product with an infinite factor is an infinity or a NaN. -/
lemma isFinite_mul_of_left (ha : a.isFinite = false) : (R.mul a b).isFinite = false := by
  unfold mul
  split_ifs with h₁ h₂ h₃
  · exact isFinite_eq_false_of_isNaN (R.nanOf_isNaN a b (by simpa using h₁))
  · exact isFinite_eq_false_of_isNaN R.defaultNaN_isNaN
  all_goals simp_all

lemma mul_of_not_isFinite_left (ha : a.isNaN = false) (ha' : a.isFinite = false)
    (hb : b.isNaN = false) (hb₀ : b.isZero = false) : R.mul a b = inf (a.signBit != b.signBit) := by
  simp [mul, ha, ha', hb, hb₀, isZero_eq_false_of_not_isFinite ha']

lemma div_of_not_isFinite_left (ha : a.isNaN = false) (ha' : a.isFinite = false)
    (hb : b.isFinite = true) : R.div a b = inf (a.signBit != b.signBit) := by
  simp [div, ha, ha', hb, isNaN_of_isFinite hb]

lemma div_of_not_isFinite_right (ha : a.isFinite = true) (hb : b.isNaN = false)
    (hb' : b.isFinite = false) : R.div a b = ofSignMagnitude (a.signBit != b.signBit) 0 := by
  simp [div, ha, hb, hb', isNaN_of_isFinite ha]

end Rounding

/-! ## `caml_float_of_int` -/

/-- `caml_float_of_int` in the hosted build: `(double) Long_val(n)`, C's conversion, which rounds
in the current direction (C99 6.3.1.4, F.3) and converts `0` to `+0`. -/
def caml_float_of_int (R : Rounding) (n : Int) : Double := R.roundExact false (Long_val n)

/-- Every count `j * 2 ^ s` of least subnormals with `j < 2 ^ 53` and `s ≤ 2045` is the count of
finite magnitude bits: while `j` lacks the hidden bit and the exponent allows, it moves up a
bit. -/
lemma exists_scaledOf_mul : ∀ (s j : Nat), j < 2 ^ 53 → s ≤ 2045 →
    ∃ M, M < infMagnitude ∧ scaledOf M = j * 2 ^ s
  | 0, j, hj, _ => ⟨j, by simp only [infMagnitude]; omega, by rw [scaledOf_of_lt hj, pow_zero, mul_one]⟩
  | s + 1, j, hj, hs => by
    by_cases h : 2 ^ 52 ≤ j
    · refine ⟨(s + 2) * 2 ^ 52 + (j - 2 ^ 52), by simp only [infMagnitude]; omega, ?_⟩
      rw [scaledOf_normal (by omega) (by omega), Nat.add_sub_cancel' h,
        show s + 2 - 1 = s + 1 by omega]
    · obtain ⟨M, hM, hsc⟩ := exists_scaledOf_mul s (2 * j) (by omega) (by omega)
      exact ⟨M, hM, by rw [hsc, pow_succ]; ring⟩

/-- Every count of whole units `1` up to `2 ^ 53` is a double's. -/
lemma exists_scaledOf_eq {j : Nat} (hj : j ≤ 2 ^ 53) :
    ∃ M, M < infMagnitude ∧ scaledOf M = j * 2 ^ 1074 := by
  rcases hj.lt_or_eq with hj | rfl
  · exact exists_scaledOf_mul 1074 j hj (by norm_num)
  · obtain ⟨M, hM, hs⟩ := exists_scaledOf_mul 1075 (2 ^ 52) (by norm_num) (by norm_num)
    exact ⟨M, hM, by rw [hs, ← pow_add, ← pow_add]⟩

/-- A count `z` of least subnormals whose absolute value is finite magnitude bits' count is the
value of a finite double, the word with those bits under the sign of `z`. -/
lemma exists_double_eq_div {z : Int} {M : Nat} (hM : M < infMagnitude)
    (hz : scaledOf M = z.natAbs) : ∃ d : Double, d.isFinite = true ∧ d.value = z / 2 ^ 1074 := by
  have hM' : M < 2 ^ 63 := hM.trans (by decide)
  refine ⟨ofSignMagnitude (decide (z < 0)) M, by
    rw [isFinite_iff, magnitude_ofSignMagnitude _ hM']; exact hM, ?_⟩
  rw [value_eq_sign_mul, signBit_ofSignMagnitude _ hM', magnitude_ofSignMagnitude _ hM', hz,
    Nat.cast_natAbs, Int.cast_abs]
  rcases lt_or_le z 0 with h | h
  · simp [h, abs_of_neg (show (z : ℚ) < 0 by exact_mod_cast h), neg_div]
  · simp [not_lt.2 h, abs_of_nonneg (show (0 : ℚ) ≤ z by exact_mod_cast h)]

/-- Every integer of magnitude at most `2 ^ 53` is the value of a finite double. -/
lemma exists_double_eq_int {k : Int} (hk : |k| ≤ 2 ^ 53) :
    ∃ d : Double, d.isFinite = true ∧ d.value = k := by
  obtain ⟨M, hM, hs⟩ := exists_scaledOf_eq (show k.natAbs ≤ 2 ^ 53 by have := abs_le.1 hk; omega)
  obtain ⟨d, hd, hv⟩ := exists_double_eq_div hM
    (show scaledOf M = (k * 2 ^ 1074).natAbs by rw [hs, Int.natAbs_mul, Int.natAbs_pow]; rfl)
  exact ⟨d, hd, by rw [hv]; push_cast; exact mul_div_cancel_right₀ _ (by positivity)⟩

/-- An OCaml int of magnitude at most `2 ^ 53` survives `caml_float_of_int` and then
`caml_int_of_float`, in every rounding direction: it is a double, so the conversion to `double`
is exact, and truncation gives it back. -/
theorem caml_int_of_float_of_int (R : Rounding) {k : Int} (hk : |k| ≤ 2 ^ 53) :
    (caml_float_of_int R (Val_long k)).isFinite = true ∧
    (caml_float_of_int R (Val_long k)).value = k ∧
    (caml_int_of_float (caml_float_of_int R (Val_long k))).map Long_val = some k := by
  have hk' := abs_le.1 hk
  have hlong : Long_val (Val_long k) = k := by
    rw [Long_val_Val_long, Int.bmod]
    split_ifs <;> omega
  obtain ⟨e, he, hev⟩ := exists_double_eq_int hk
  rw [caml_float_of_int, hlong]
  obtain ⟨hfin, hv⟩ := R.roundExact_exact_value he false hev
  have htr : (R.roundExact false k).truncate = k := by
    rw [Double.truncate_eq, hv]
    split <;> simp
  have hexp : (R.roundExact false k).exponent ≠ 2047 := by simpa [isFinite] using hfin
  refine ⟨hfin, hv, ?_⟩
  rw [caml_int_of_float, if_neg (by rw [htr]; omega)]
  simp only [Option.map_some', Long_val_Val_long, htr, Option.some.injEq, Int.bmod]
  split_ifs <;> omega

/-- `caml_int_of_float_of_int` at `3`, rounding toward zero. -/
theorem caml_int_of_float_of_int_three :
    |(3 : Int)| ≤ 2 ^ 53 ∧
    (caml_float_of_int Rounding.towardZero (Val_long 3)).isFinite = true ∧
    (caml_float_of_int Rounding.towardZero (Val_long 3)).value = 3 ∧
    (caml_int_of_float (caml_float_of_int Rounding.towardZero (Val_long 3))).map Long_val =
      some 3 :=
  ⟨by norm_num, caml_int_of_float_of_int _ (by norm_num)⟩

end CamlFloats
