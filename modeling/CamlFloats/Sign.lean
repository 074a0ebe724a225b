import CamlFloats.Value
import CamlFloats.Classify

/-!
# `caml_neg_float`, `caml_abs_float`, `caml_hypot` and the sign bit

`caml_neg_float` returns `- Double_val(f)` and the hosted `caml_abs_float` returns
`fabs(Double_val(f))`. On binary64 both are IEEE 754's sign-bit operations (§5.5.1): `negate`
flips the sign bit and `abs` clears it, leaving the exponent and significand fields as they are,
NaNs included. Together with `copysign` they are the three ways `floats.c` sets a sign.

Negation reverses C's order and `caml_float_compare` (`caml_float_compare_neg`), and on values
it is `-` and `fabs` is `|·|` (`value_neg_abs`).

Without C99's `hypot`, `caml_hypot` returns a NaN operand as it is and otherwise hands the
absolute values, the larger first, to the back end's rounded arithmetic (`FloatOps`, a
parameter). Whatever that arithmetic does, the result is symmetric in the operands and blind to
their signs (`caml_hypot_spec`).
-/

namespace CamlFloats

/-- `- Double_val(f)`: the same magnitude bits under the other sign. -/
def caml_neg_float (f : Double) : Double :=
  ⟨BitVec.ofNat 64 ((if f.signBit then 0 else 2 ^ 63) + f.magnitude)⟩

/-- `fabs(Double_val(f))` in the hosted build: the magnitude bits under the sign `+`. -/
def caml_abs_float (f : Double) : Double := ⟨BitVec.ofNat 64 f.magnitude⟩

namespace Double

/-- The word with sign `s` and magnitude bits `M`, for `M < 2 ^ 63`, reads back as `s` and
`M`. -/
lemma signBit_magnitude_ofNat (s : Bool) {M : Nat} (hM : M < 2 ^ 63) :
    (⟨BitVec.ofNat 64 ((if s then 2 ^ 63 else 0) + M)⟩ : Double).signBit = s ∧
    (⟨BitVec.ofNat 64 ((if s then 2 ^ 63 else 0) + M)⟩ : Double).magnitude = M := by
  simp only [signBit, magnitude, BitVec.toNat_ofNat]
  cases s <;> simp <;> omega

end Double

open Double

@[simp] lemma signBit_caml_neg_float (f : Double) : (caml_neg_float f).signBit = !f.signBit := by
  have := signBit_magnitude_ofNat (!f.signBit) f.magnitude_lt
  cases h : f.signBit <;> simp_all [caml_neg_float]

@[simp] lemma magnitude_caml_neg_float (f : Double) :
    (caml_neg_float f).magnitude = f.magnitude := by
  have := signBit_magnitude_ofNat (!f.signBit) f.magnitude_lt
  cases h : f.signBit <;> simp_all [caml_neg_float]

@[simp] lemma signBit_caml_abs_float (f : Double) : (caml_abs_float f).signBit = false := by
  simpa using (signBit_magnitude_ofNat false f.magnitude_lt).1

@[simp] lemma magnitude_caml_abs_float (f : Double) :
    (caml_abs_float f).magnitude = f.magnitude := by
  simpa using (signBit_magnitude_ofNat false f.magnitude_lt).2

lemma key_caml_neg_float (f : Double) : (caml_neg_float f).key = -f.key := by
  simp only [key, signBit_caml_neg_float, magnitude_caml_neg_float]
  cases f.signBit <;> simp

/-- Negation reverses `caml_float_compare`, NaN included. -/
theorem caml_float_compare_neg (f g : Double) :
    caml_float_compare hosted (caml_neg_float f) (caml_neg_float g) =
      caml_float_compare hosted g f := by
  simp only [caml_float_compare_hosted, isNaN_eq, magnitude_caml_neg_float, key_caml_neg_float,
    neg_inj, neg_lt_neg_iff, Bool.or_comm, eq_comm]

/-- On values, `caml_neg_float` is `-` and `caml_abs_float` is `|·|`. -/
theorem value_neg_abs (f : Double) :
    (caml_neg_float f).value = -f.value ∧ (caml_abs_float f).value = |f.value| := by
  have h : (0 : ℚ) ≤ scaledOf f.magnitude / 2 ^ 1074 := by positivity
  simp only [value_eq_sign_mul, signBit_caml_neg_float, magnitude_caml_neg_float,
    signBit_caml_abs_float, magnitude_caml_abs_float]
  cases f.signBit <;> simp [abs_of_nonneg h]

/-! ## `caml_hypot` without C99's `hypot` -/

/-- The back end's rounded arithmetic that `caml_hypot` calls: `+`, `*`, `/` and `sqrt`. Sign
operations and comparisons are exact and modelled above. -/
structure FloatOps where
  add : Double → Double → Double
  mul : Double → Double → Double
  div : Double → Double → Double
  sqrt : Double → Double

/-- The body of `caml_hypot` after the swap: `if (x == 0.0) return 0.0; ratio = y / x;
return x * sqrt(1.0 + ratio * ratio);`. -/
def hypotOrdered (A : FloatOps) (x y : Double) : Double :=
  if x.eq Double.zero then Double.zero
  else
    let ratio := A.div y x
    A.mul x (A.sqrt (A.add Double.one (A.mul ratio ratio)))

/-- `caml_hypot` without `HAS_C99_FLOAT_OPS`: a NaN operand is returned as it is (`x != x`);
otherwise both operands lose their sign and are swapped so that `x` is the larger. -/
def caml_hypot (A : FloatOps) (x y : Double) : Double :=
  if !x.eq x then x
  else if !y.eq y then y
  else
    let x' := caml_abs_float x
    let y' := caml_abs_float y
    if x'.lt y' then hypotOrdered A y' x' else hypotOrdered A x' y'

lemma Double.eq_self (d : Double) : d.eq d = !d.isNaN := by
  cases h : d.isNaN <;> simp [Double.eq, h]

@[simp] lemma isNaN_caml_abs_float (f : Double) : (caml_abs_float f).isNaN = f.isNaN := by
  simp only [isNaN_eq, magnitude_caml_abs_float]

@[simp] lemma isNaN_caml_neg_float (f : Double) : (caml_neg_float f).isNaN = f.isNaN := by
  simp only [isNaN_eq, magnitude_caml_neg_float]

/-- `caml_abs_float` reads the magnitude bits only, so it ignores a negation. -/
@[simp] lemma caml_abs_float_neg (f : Double) :
    caml_abs_float (caml_neg_float f) = caml_abs_float f := by
  simp only [caml_abs_float, magnitude_caml_neg_float]

lemma Double.lt_asymm {a b : Double} (h : a.lt b = true) : b.lt a = false := by
  simp only [Double.lt_eq_true] at h
  simp [Double.lt, h.2.2.le.not_lt]

/-- Two words with the sign `+` and the same key are one word. -/
lemma eq_of_key_eq_of_signBit {a b : Double} (ha : a.signBit = false) (hb : b.signBit = false)
    (h : a.key = b.key) : a = b :=
  ext_of_key_eq (ha.trans hb.symm) (by simpa [key, ha, hb] using h)

/-- On operands that are not NaNs, `caml_hypot` runs on their absolute values, larger first. -/
lemma caml_hypot_eq (A : FloatOps) {x y : Double} (hx : x.isNaN = false) (hy : y.isNaN = false) :
    caml_hypot A x y =
      if (caml_abs_float x).lt (caml_abs_float y) then
        hypotOrdered A (caml_abs_float y) (caml_abs_float x)
      else hypotOrdered A (caml_abs_float x) (caml_abs_float y) := by
  simp [caml_hypot, Double.eq_self, hx, hy]

/-- `caml_hypot` returns its first NaN operand; on other operands it is symmetric and ignores
their signs, since the rounded arithmetic always sees the larger absolute value first. -/
theorem caml_hypot_spec (A : FloatOps) (x y : Double) :
    (x.isNaN = true → caml_hypot A x y = x) ∧
    (x.isNaN = false → y.isNaN = true → caml_hypot A x y = y) ∧
    (x.isNaN = false → y.isNaN = false →
      caml_hypot A x y = caml_hypot A y x ∧
      caml_hypot A (caml_neg_float x) y = caml_hypot A x y) := by
  refine ⟨fun hx => by simp [caml_hypot, Double.eq_self, hx],
    fun hx hy => by simp [caml_hypot, Double.eq_self, hx, hy], fun hx hy => ⟨?_, ?_⟩⟩
  · have hax : (caml_abs_float x).isNaN = false := by simpa using hx
    have hay : (caml_abs_float y).isNaN = false := by simpa using hy
    rw [caml_hypot_eq A hx hy, caml_hypot_eq A hy hx]
    rcases Double.trichotomy hax hay with h | h | h
    · rw [eq_of_key_eq_of_signBit (signBit_caml_abs_float x) (signBit_caml_abs_float y)
        (Double.eq_eq_true.1 h).2.2]
    · simp [h, Double.lt_asymm h]
    · simp [h, Double.lt_asymm h]
  · rw [caml_hypot_eq A (by simpa using hx) hy, caml_hypot_eq A hx hy, caml_abs_float_neg]

/-- `caml_hypot_spec` at `1.0` and `2.0`, for arithmetic that returns its first operand. -/
theorem caml_hypot_spec_one_two :
    one.isNaN = false ∧ two.isNaN = false ∧
    caml_hypot ⟨fun a _ => a, fun a _ => a, fun a _ => a, id⟩ one two =
      caml_hypot ⟨fun a _ => a, fun a _ => a, fun a _ => a, id⟩ two one :=
  ⟨by decide, by decide,
    ((caml_hypot_spec ⟨fun a _ => a, fun a _ => a, fun a _ => a, id⟩ one two).2.2
      (by decide) (by decide)).1⟩

end CamlFloats
