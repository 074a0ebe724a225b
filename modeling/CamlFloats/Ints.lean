import CamlFloats.Value

/-!
# OCaml ints and doubles: `caml_ldexp_float` and `caml_int_of_float`

`caml_ldexp_float f i` calls `ldexp(Double_val(f), Int_val(i))`, or `fixpt_ldexp` in the kernel
build. `Int_val(x)` is `(int) Long_val(x)`: the OCaml int, an `intnat`, converted to C's 32-bit
`int`, which keeps its low 32 bits in two's complement. So the exponent `ldexp` sees is `i`
only when `i` fits an `int`; otherwise it is `i` reduced modulo `2 ^ 32` into
`[-2 ^ 31, 2 ^ 31)`, which can flip its sign or make it `0`.

The math library's `ldexp` is a parameter, given over every integer exponent.

`caml_int_of_float f` is `Val_long((intnat) Double_val(f))`. C's conversion truncates the value
toward zero (`Double.truncate_eq`) and is undefined when the result leaves `intnat`'s range;
`Val_long` then shifts the result left past the tag bit, so `Long_val` of the OCaml int gives the
truncation reduced modulo `2 ^ 63` into `[-2 ^ 62, 2 ^ 62)` (`caml_int_of_float_spec`): the
doubles from `2 ^ 62` to `2 ^ 63` wrap to negative ints.
-/

namespace CamlFloats

/-- `Int_val(x)`: the OCaml int `x` as a C `int`. -/
def Int_val (x : Int) : Int := (BitVec.ofInt 32 x).toInt

/-- `caml_ldexp_float f i`, for the back end's `ldexp` over all integer exponents. -/
def caml_ldexp_float {D : Type} (ldexp : D → Int → D) (f : D) (i : Int) : D :=
  ldexp f (Int_val i)

lemma Int_val_eq_bmod (x : Int) : Int_val x = x.bmod (2 ^ 32) := by
  simp [Int_val]

lemma Int_val_emod (x : Int) : Int_val x % 2 ^ 32 = x % 2 ^ 32 := by
  rw [Int_val_eq_bmod]
  exact Int.bmod_emod

lemma Int_val_range (x : Int) : -2 ^ 31 ≤ Int_val x ∧ Int_val x < 2 ^ 31 := by
  rw [Int_val_eq_bmod]
  exact ⟨Int.le_bmod (by decide), Int.bmod_lt (by decide)⟩

lemma Int_val_of_range {x : Int} (h₁ : -2 ^ 31 ≤ x) (h₂ : x < 2 ^ 31) : Int_val x = x := by
  have hr := Int_val_range x
  have hm := Int_val_emod x
  omega

/-- The exponent `caml_ldexp_float` passes is `i` modulo `2 ^ 32`, in `int`'s range; it is `i`
itself when `i` fits an `int`, and then `caml_ldexp_float` is `ldexp` at `i`. -/
theorem caml_ldexp_float_exponent {D : Type} (ldexp : D → Int → D) (f : D) (i : Int) :
    caml_ldexp_float ldexp f i = ldexp f (Int_val i) ∧
    Int_val i % 2 ^ 32 = i % 2 ^ 32 ∧ -2 ^ 31 ≤ Int_val i ∧ Int_val i < 2 ^ 31 ∧
    (-2 ^ 31 ≤ i → i < 2 ^ 31 → caml_ldexp_float ldexp f i = ldexp f i) :=
  ⟨rfl, Int_val_emod i, (Int_val_range i).1, (Int_val_range i).2, fun h₁ h₂ => by
    simp only [caml_ldexp_float, Int_val_of_range h₁ h₂]⟩

/-- `caml_ldexp_float_exponent` at `i = 1000`, for the exponent-adding `ldexp` on integers. -/
theorem caml_ldexp_float_exponent_thousand :
    (-2 ^ 31 ≤ (1000 : Int) ∧ (1000 : Int) < 2 ^ 31) ∧
    caml_ldexp_float (fun (f n : Int) => f + n) 1 1000 = 1001 :=
  ⟨by decide, (caml_ldexp_float_exponent (fun (f n : Int) => f + n) 1 1000).2.2.2.2
    (by decide) (by decide)⟩

/-- Outside `int`'s range the exponent changes: `2 ^ 32` becomes `0`, and the positive `2 ^ 31`
becomes the negative `-2 ^ 31`. -/
theorem Int_val_wraps : Int_val (2 ^ 32) = 0 ∧ Int_val (2 ^ 31) = -2 ^ 31 := by
  decide

/-! ## `caml_int_of_float` -/

/-- `Val_long(x)`: `(x << 1) + 1` as a 64-bit `intnat`. -/
def Val_long (x : Int) : Int := (2 * x + 1).bmod (2 ^ 64)

/-- `Long_val(v)`: the arithmetic shift `v >> 1`. -/
def Long_val (v : Int) : Int := v / 2

/-- Tagging and untagging keeps an int modulo `2 ^ 63`, in `[-2 ^ 62, 2 ^ 62)`. -/
lemma Long_val_Val_long (x : Int) : Long_val (Val_long x) = x.bmod (2 ^ 63) := by
  simp only [Long_val, Val_long, Int.bmod]
  split_ifs <;> omega

namespace Double

/-- `(intnat) d` before its range check: the significand shifted by the exponent, the bits
below the binary point dropped, under the sign. -/
def truncate (d : Double) : Int :=
  let n : Nat :=
    if 1075 ≤ max d.exponent 1 then d.significand * 2 ^ (max d.exponent 1 - 1075)
    else d.significand / 2 ^ (1075 - max d.exponent 1)
  if d.signBit then -(n : Int) else n

/-- The significand shifted by the exponent, as a rational, rounds down to the shifted
significand. -/
lemma floor_significand_mul (d : Double) :
    ⌊(d.significand : ℚ) * 2 ^ (max (d.exponent : Int) 1 - 1075)⌋ =
      if 1075 ≤ max d.exponent 1 then (d.significand * 2 ^ (max d.exponent 1 - 1075) : Nat)
      else (d.significand / 2 ^ (1075 - max d.exponent 1) : Nat) := by
  split_ifs with h
  · rw [show max (d.exponent : Int) 1 - 1075 = ((max d.exponent 1 - 1075 : Nat) : Int) by omega,
      zpow_natCast]
    exact_mod_cast Int.floor_natCast _
  · rw [show max (d.exponent : Int) 1 - 1075 = -((1075 - max d.exponent 1 : Nat) : Int) by omega,
      zpow_neg, zpow_natCast, ← div_eq_mul_inv]
    exact_mod_cast Rat.floor_natCast_div_natCast _ _

/-- Truncating `±A` toward zero, for `A ≥ 0` rounding down to `n`, gives `±n`. -/
lemma trunc_signed {A : ℚ} {n : Nat} (hA : 0 ≤ A) (h : ⌊A⌋ = n) (s : Bool) :
    (if s then -(n : Int) else n) =
      if 0 ≤ (if s then -A else A) then ⌊if s then -A else A⌋ else ⌈if s then -A else A⌉ := by
  cases s
  · simp [hA, h]
  · by_cases h0 : A = 0
    · rw [h0, Int.floor_zero] at h
      simp [h0, ← h]
    · have : ¬0 ≤ -A := by
        intro h'
        exact h0 (by linarith)
      simp only [if_true, if_neg this, Int.ceil_neg, h]

/-- C's conversion to an integer type truncates toward zero: the floor of a nonnegative value
and the ceiling of a negative one. -/
lemma truncate_eq (d : Double) :
    d.truncate = if 0 ≤ d.value then ⌊d.value⌋ else ⌈d.value⌉ := by
  have hv : d.value =
      if d.signBit then -((d.significand : ℚ) * 2 ^ (max (d.exponent : Int) 1 - 1075))
      else (d.significand : ℚ) * 2 ^ (max (d.exponent : Int) 1 - 1075) := by
    simp only [value]
    split <;> ring
  rw [hv]
  exact trunc_signed (by positivity) (floor_significand_mul d) d.signBit

end Double

/-- `caml_int_of_float` in the hosted build: `Val_long((intnat) Double_val(f))`, or `none`
where the conversion is undefined: a NaN, an infinity, or a truncation outside `intnat`. -/
def caml_int_of_float (f : Double) : Option Int :=
  if f.exponent = 2047 ∨ ¬(-2 ^ 63 ≤ f.truncate ∧ f.truncate < 2 ^ 63) then none
  else some (Val_long f.truncate)

/-- `caml_int_of_float f` truncates `f` toward zero and gives that truncation modulo `2 ^ 63` as
an OCaml int; it is the truncation itself when that lies in `[-2 ^ 62, 2 ^ 62)`. -/
theorem caml_int_of_float_spec (f : Double) :
    f.truncate = (if 0 ≤ f.value then ⌊f.value⌋ else ⌈f.value⌉) ∧
    (caml_int_of_float f).map Long_val =
      (if f.exponent = 2047 ∨ ¬(-2 ^ 63 ≤ f.truncate ∧ f.truncate < 2 ^ 63) then none
      else some (f.truncate.bmod (2 ^ 63))) ∧
    (f.exponent ≠ 2047 → -2 ^ 62 ≤ f.truncate → f.truncate < 2 ^ 62 →
      (caml_int_of_float f).map Long_val = some f.truncate) := by
  have hmap : (caml_int_of_float f).map Long_val =
      (if f.exponent = 2047 ∨ ¬(-2 ^ 63 ≤ f.truncate ∧ f.truncate < 2 ^ 63) then none
      else some (f.truncate.bmod (2 ^ 63))) := by
    rw [caml_int_of_float]
    split <;> simp [Long_val_Val_long]
  refine ⟨Double.truncate_eq f, hmap, fun he h₁ h₂ => ?_⟩
  rw [hmap, if_neg (by omega)]
  simp only [Option.some.injEq, Int.bmod]
  split <;> omega

/-- `caml_int_of_float_spec` at `1.0`. -/
theorem caml_int_of_float_spec_one :
    Double.one.exponent ≠ 2047 ∧ -2 ^ 62 ≤ Double.one.truncate ∧ Double.one.truncate < 2 ^ 62 ∧
    (caml_int_of_float Double.one).map Long_val = some Double.one.truncate :=
  ⟨by decide, by decide, by decide,
    (caml_int_of_float_spec Double.one).2.2 (by decide) (by decide) (by decide)⟩

/-- `2 ^ 62`, a double, converts to the OCaml int `-2 ^ 62`. -/
example : (caml_int_of_float ⟨0x43D0000000000000#64⟩).map Long_val = some (-2 ^ 62) := by
  decide

end CamlFloats
