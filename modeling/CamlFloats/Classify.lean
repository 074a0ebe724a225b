import CamlFloats.Layout
import CamlFloats.Value

/-!
# `caml_classify_float` and `caml_copysign`: reading a double's bits

`caml_classify_float` has three bodies. With a usable `fpclassify` (defined, and the target
neither Cygwin nor MinGW) it maps the host's class to its own enumeration; in the kernel build
it only tells zero from the rest; otherwise it inspects the bits through
`union double_as_two_int32`: it folds the 20 mantissa bits of the high word into `l`, masks
`h` down to the exponent field and tests the two words. Without C99's `copysign`,
`caml_copysign` likewise clears the sign bit of `x`'s high word and copies in `y`'s.

The host's `fpclassify` on binary64 is fixed by the fields (IEEE 754-2008 §3.4), and it sorts
the words by what they denote (`fpclassify_value`): a NaN, an infinity, zero, a nonzero value
below `2 ^ -1022` in magnitude, or one at least that. The bit inspection computes the same class
on every word and every layout (`classify_bits_eq`), and the emulated `caml_copysign` is C99's
`copysign` (`caml_copysign_eq`). The masks are read as numbers through `land_mask` and
`lor_eq_zero`.
-/

namespace CamlFloats

/-! ## Masks -/

/-- Masking with `2^k - 1` shifted by `s` keeps bits `s` to `s + k - 1` in place. -/
lemma land_mask (x k s : Nat) : x &&& (2 ^ k - 1) <<< s = (x >>> s % 2 ^ k) <<< s := by
  apply Nat.eq_of_testBit_eq
  intro i
  simp only [Nat.testBit_and, Nat.testBit_shiftLeft, Nat.testBit_two_pow_sub_one,
    Nat.testBit_mod_two_pow, Nat.testBit_shiftRight]
  by_cases h : s ≤ i
  · simp [h, Nat.add_sub_cancel' h, Bool.and_comm]
  · simp [h]

lemma lor_eq_zero {a b : Nat} : a ||| b = 0 ↔ a = 0 ∧ b = 0 := by
  refine ⟨fun h => ?_, fun ⟨ha, hb⟩ => by rw [ha, hb]; rfl⟩
  have hbit : ∀ i, a.testBit i = false ∧ b.testBit i = false := fun i => by
    simpa using congrArg (Nat.testBit · i) h
  exact ⟨Nat.eq_of_testBit_eq fun i => by simp [(hbit i).1],
    Nat.eq_of_testBit_eq fun i => by simp [(hbit i).2]⟩

lemma land_exponent_mask (x : Nat) : x &&& 0x7FF00000 = x / 2 ^ 20 % 2 ^ 11 * 2 ^ 20 := by
  simpa only [Nat.shiftLeft_eq, Nat.shiftRight_eq_div_pow] using land_mask x 11 20

lemma land_sign_mask (x : Nat) : x &&& 0x80000000 = x / 2 ^ 31 % 2 * 2 ^ 31 := by
  simpa only [Nat.shiftLeft_eq, Nat.shiftRight_eq_div_pow] using land_mask x 1 31

/-! ## Classification -/

/-- `caml_classify_float`'s classes, in the order of its `enum`. -/
inductive FPClass
  | FP_normal
  | FP_subnormal
  | FP_zero
  | FP_infinite
  | FP_nan
deriving DecidableEq, Repr

/-- The classes `<math.h>`'s `fpclassify` returns. -/
inductive HostFPClass
  | FP_NAN
  | FP_INFINITE
  | FP_ZERO
  | FP_SUBNORMAL
  | FP_NORMAL
deriving DecidableEq, Repr

/-- `fpclassify` on binary64: the class IEEE 754 gives the exponent and significand fields. -/
def fpclassify (d : Double) : HostFPClass :=
  if d.exponent = 0 then (if d.mantissa = 0 then .FP_ZERO else .FP_SUBNORMAL)
  else if d.exponent = 2047 then (if d.mantissa = 0 then .FP_INFINITE else .FP_NAN)
  else .FP_NORMAL

/-- The `switch` of the `fpclassify` branch. -/
def ofHostFPClass : HostFPClass → FPClass
  | .FP_NAN => .FP_nan
  | .FP_INFINITE => .FP_infinite
  | .FP_ZERO => .FP_zero
  | .FP_SUBNORMAL => .FP_subnormal
  | .FP_NORMAL => .FP_normal

/-- The bit-inspection branch: `l = l | (h & 0xFFFFF); h = h & 0x7FF00000;` then the tests. -/
def classifyBits (L : Layout) (d : Double) : FPClass :=
  let u := DoubleAsTwoInt32.ofDouble L d
  let l := u.l L ||| (u.h L &&& 0xFFFFF#32)
  let h := u.h L &&& 0x7FF00000#32
  if h ||| l = 0#32 then .FP_zero
  else if h = 0#32 then .FP_subnormal
  else if h = 0x7FF00000#32 then (if l = 0#32 then .FP_infinite else .FP_nan)
  else .FP_normal

/-- The hosted bodies of `caml_classify_float`: through `fpclassify`, or by the bits of the
layout `L` when `fpclassify` is missing or not trusted. -/
def caml_classify_float (useFpclassify : Bool) (L : Layout) (d : Double) : FPClass :=
  if useFpclassify then ofHostFPClass (fpclassify d) else classifyBits L d

/-- The kernel body: `__double` has no infinities or NaNs, so only zero is told apart. -/
def caml_classify_float_kernel {D : Type} [Zero D] [DecidableEq D] (d : D) : FPClass :=
  if d = 0 then .FP_zero else .FP_normal

section Bits

lemma bitVec_or_eq_zero {a b : BitVec 32} : a ||| b = 0#32 ↔ a = 0#32 ∧ b = 0#32 := by
  simp only [BitVec.toNat_eq, BitVec.toNat_or, BitVec.toNat_ofNat, Nat.zero_mod, lor_eq_zero]

variable (L : Layout) (d : Double)

/-- The masked high word is the exponent field, in place. -/
lemma masked_h_toNat :
    ((DoubleAsTwoInt32.ofDouble L d).h L &&& 0x7FF00000#32).toNat = d.exponent * 2 ^ 20 := by
  have hmask : (0x7FF00000#32).toNat = 0x7FF00000 := rfl
  rw [BitVec.toNat_and, DoubleAsTwoInt32.h_ofDouble, hmask, land_exponent_mask, Double.exponent]
  omega

lemma masked_h_eq_zero :
    (DoubleAsTwoInt32.ofDouble L d).h L &&& 0x7FF00000#32 = 0#32 ↔ d.exponent = 0 := by
  rw [BitVec.toNat_eq, masked_h_toNat]
  simp only [BitVec.toNat_ofNat]
  omega

lemma masked_h_eq_mask :
    (DoubleAsTwoInt32.ofDouble L d).h L &&& 0x7FF00000#32 = 0x7FF00000#32 ↔
      d.exponent = 2047 := by
  rw [BitVec.toNat_eq, masked_h_toNat]
  simp only [BitVec.toNat_ofNat]
  omega

/-- The low word and the high mantissa bits folded into it are zero exactly on a zero
mantissa. -/
lemma masked_l_eq_zero :
    (DoubleAsTwoInt32.ofDouble L d).l L = 0#32 ∧
      (DoubleAsTwoInt32.ofDouble L d).h L &&& 0xFFFFF#32 = 0#32 ↔ d.mantissa = 0 := by
  have hmask : (0xFFFFF#32).toNat = 2 ^ 20 - 1 := rfl
  rw [← bitVec_or_eq_zero, BitVec.toNat_eq, BitVec.toNat_or, BitVec.toNat_and,
    DoubleAsTwoInt32.h_ofDouble, DoubleAsTwoInt32.l_ofDouble, hmask,
    Nat.and_pow_two_sub_one_eq_mod, BitVec.toNat_ofNat, Nat.zero_mod, lor_eq_zero,
    Double.mantissa]
  have := d.bits.isLt
  omega

/-- The bit inspection reads the exponent and significand fields: the tests on the masked words
are the tests of `fpclassify` on the fields. -/
lemma classifyBits_eq_fpclassify : classifyBits L d = ofHostFPClass (fpclassify d) := by
  simp only [classifyBits, fpclassify, bitVec_or_eq_zero, masked_h_eq_zero, masked_h_eq_mask,
    masked_l_eq_zero]
  by_cases he : d.exponent = 0 <;> by_cases hn : d.exponent = 2047 <;>
    by_cases hm : d.mantissa = 0 <;> simp [he, hn, hm, ofHostFPClass]

/-- On every double and every layout, the bit inspection returns `FP_zero` exactly when the
exponent and significand fields are zero, `FP_subnormal` when only the exponent field is,
`FP_infinite` when the exponent field is all ones and the significand zero, `FP_nan` when the
exponent field is all ones and the significand is not zero, and `FP_normal` otherwise: it agrees
with the `fpclassify` branch. -/
theorem classify_bits_eq :
    (caml_classify_float false L d = .FP_zero ↔ d.exponent = 0 ∧ d.mantissa = 0) ∧
    (caml_classify_float false L d = .FP_subnormal ↔ d.exponent = 0 ∧ d.mantissa ≠ 0) ∧
    (caml_classify_float false L d = .FP_infinite ↔ d.exponent = 2047 ∧ d.mantissa = 0) ∧
    (caml_classify_float false L d = .FP_nan ↔ d.exponent = 2047 ∧ d.mantissa ≠ 0) ∧
    (caml_classify_float false L d = .FP_normal ↔ d.exponent ≠ 0 ∧ d.exponent ≠ 2047) ∧
    caml_classify_float false L d = caml_classify_float true L d := by
  simp only [caml_classify_float, Bool.false_eq_true, if_false, if_true,
    classifyBits_eq_fpclassify, fpclassify]
  by_cases he : d.exponent = 0 <;> by_cases hn : d.exponent = 2047 <;>
    by_cases hm : d.mantissa = 0 <;> simp_all [ofHostFPClass]

end Bits

/-! ## Classes by value -/

lemma scaledOf_lt_iff {M : Nat} : scaledOf M < 2 ^ 52 ↔ M < 2 ^ 52 := by
  constructor
  · intro h
    by_contra hM
    have : scaledOf (2 ^ 52) ≤ scaledOf M := scaledOf_strictMono.monotone (by omega)
    exact absurd (this.trans_lt h) (by decide)
  · intro h
    simp only [scaledOf, Nat.div_eq_of_lt h, if_true, Nat.mod_eq_of_lt h]
    simpa using h

lemma scaledOf_eq_zero {M : Nat} : scaledOf M = 0 ↔ M = 0 :=
  ⟨fun h => scaledOf_strictMono.injective (h.trans scaledOf_zero.symm),
    fun h => h ▸ scaledOf_zero⟩

/-- `fpclassify` sorts a word by what it denotes (IEEE 754-2008 §3.4): a NaN, an infinity, zero,
a nonzero value below `2 ^ -1022` in magnitude (subnormal), or one at least that (normal). -/
theorem fpclassify_value (d : Double) :
    (fpclassify d = .FP_NAN ↔ d.isNaN = true) ∧
    (fpclassify d = .FP_INFINITE ↔
      d.isNaN = false ∧ (d.extValue = ⊤ ∨ d.extValue = ⊥)) ∧
    (fpclassify d = .FP_ZERO ↔ d.exponent ≠ 2047 ∧ d.value = 0) ∧
    (fpclassify d = .FP_SUBNORMAL ↔
      d.exponent ≠ 2047 ∧ d.value ≠ 0 ∧ |d.value| < (2 ^ 1022)⁻¹) ∧
    (fpclassify d = .FP_NORMAL ↔ d.exponent ≠ 2047 ∧ (2 ^ 1022)⁻¹ ≤ |d.value|) := by
  have hzero : d.value = 0 ↔ d.magnitude = 0 := by
    rw [← abs_eq_zero, Double.abs_value, div_eq_zero_iff]
    simp [scaledOf_eq_zero]
  have hsmall : |d.value| < (2 ^ 1022)⁻¹ ↔ d.magnitude < 2 ^ 52 := by
    rw [Double.abs_value, div_lt_iff₀ (by positivity), ← scaledOf_lt_iff]
    rw [show ((2 : ℚ) ^ 1022)⁻¹ * 2 ^ 1074 = ((2 ^ 52 : Nat) : ℚ) by norm_num]
    exact Nat.cast_lt
  have hinf : d.extValue = ⊤ ∨ d.extValue = ⊥ ↔ d.exponent = 2047 := by
    simp only [Double.extValue]
    split_ifs <;> simp_all
  have he := Double.exponent_eq d
  have hm := Double.mantissa_eq d
  simp only [hinf, ← not_lt, hsmall, ne_eq, hzero, fpclassify, Double.isNaN]
  split_ifs <;> simp <;> omega

/-! ## `caml_copysign` -/

/-- C99's `copysign`: the magnitude of `x` with the sign of `y`. -/
def copysign (x y : Double) : Double :=
  ⟨BitVec.ofNat 64 ((if y.signBit then 2 ^ 63 else 0) + x.magnitude)⟩

/-- `caml_copysign` without `HAS_C99_FLOAT_OPS`: `ux.i.h &= 0x7FFFFFFFU;
ux.i.h |= (uy.i.h & 0x80000000U);` then `ux.d`. -/
def caml_copysign (L : Layout) (x y : Double) : Double :=
  let ux := DoubleAsTwoInt32.ofDouble L x
  let uy := DoubleAsTwoInt32.ofDouble L y
  let ux := ux.setH L (ux.h L &&& 0x7FFFFFFF#32)
  let ux := ux.setH L (ux.h L ||| (uy.h L &&& 0x80000000#32))
  ux.d L

/-- The high word `caml_copysign` writes: `x`'s without its sign bit, with `y`'s sign bit. -/
lemma copysign_high_word (hx hy : BitVec 32) :
    ((hx &&& 0x7FFFFFFF#32) ||| (hy &&& 0x80000000#32)).toNat =
      hx.toNat % 2 ^ 31 + hy.toNat / 2 ^ 31 % 2 * 2 ^ 31 := by
  have hlo : (0x7FFFFFFF#32).toNat = 2 ^ 31 - 1 := rfl
  have hhi : (0x80000000#32).toNat = 0x80000000 := rfl
  rw [BitVec.toNat_or, BitVec.toNat_and, BitVec.toNat_and, hlo, hhi,
    Nat.and_pow_two_sub_one_eq_mod, land_sign_mask, Nat.or_comm, Nat.mul_comm _ (2 ^ 31),
    ← Nat.mul_add_lt_is_or (Nat.mod_lt _ (by decide))]
  omega

/-- Without C99's `copysign`, `caml_copysign` computes it, on every layout. -/
theorem caml_copysign_eq (L : Layout) (x y : Double) : caml_copysign L x y = copysign x y := by
  have := x.bits.isLt
  have hy := DoubleAsTwoInt32.h_ofDouble L y
  refine Double.ext (BitVec.eq_of_toNat_eq ?_)
  simp only [caml_copysign, DoubleAsTwoInt32.h_setH, DoubleAsTwoInt32.setH_setH,
    DoubleAsTwoInt32.d_setH, copysign_high_word, DoubleAsTwoInt32.h_ofDouble, hy, copysign,
    BitVec.toNat_ofNat, Double.signBit, Double.magnitude, decide_eq_true_eq]
  split <;> omega

end CamlFloats
