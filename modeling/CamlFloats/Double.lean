import Mathlib

/-!
# Binary64 doubles as 64-bit words

`floats.c` reads a `double` in two ways: as a number, through C's relational operators and
the math library, and as a bit pattern, through `union double_as_two_int32`. Both readings
start from the word that holds the value (IEEE 754-2008 §3.4): the sign in bit 63, the 11-bit
biased `exponent` in bits 52 to 62 and the 52-bit trailing significand (`mantissa`) in bits 0
to 51.

C's `==`, `<` and `<=` on doubles are IEEE 754's quiet comparisons (§5.11): a NaN operand makes
each of them false, the two zeros are equal, and any other pair is ordered by value. On the
encoding the value order is the order of `key`, the magnitude bits 0 to 62 read as a natural
number (exponent above significand, so it grows with the absolute value) with the sign bit
applied. `Value.lean` proves that this is the order of the values the words denote.
-/

namespace CamlFloats

/-- A binary64 `double`, as the 64-bit word that holds it. -/
@[ext] structure Double where
  bits : BitVec 64
deriving DecidableEq, Repr

namespace Double

/-! ## Fields -/

/-- The sign bit, bit 63. -/
def signBit (d : Double) : Bool := 2 ^ 63 ≤ d.bits.toNat

/-- The 11-bit biased exponent field, bits 52 to 62. -/
def exponent (d : Double) : Nat := d.bits.toNat / 2 ^ 52 % 2 ^ 11

/-- The 52-bit trailing significand field, bits 0 to 51. -/
def mantissa (d : Double) : Nat := d.bits.toNat % 2 ^ 52

/-- Bits 0 to 62: exponent and significand fields together, `exponent * 2^52 + mantissa`. -/
def magnitude (d : Double) : Nat := d.bits.toNat % 2 ^ 63

/-- A NaN: all-ones exponent and a nonzero significand. -/
def isNaN (d : Double) : Bool := d.exponent = 2047 && d.mantissa ≠ 0

/-- The signed magnitude; both zeros have key `0`. -/
def key (d : Double) : Int := if d.signBit then -(d.magnitude : Int) else d.magnitude

lemma magnitude_eq (d : Double) : d.magnitude = d.exponent * 2 ^ 52 + d.mantissa := by
  have := d.bits.isLt
  simp only [magnitude, exponent, mantissa]
  omega

lemma bits_toNat_eq (d : Double) :
    d.bits.toNat = (if d.signBit then 2 ^ 63 else 0) + d.magnitude := by
  have := d.bits.isLt
  simp only [signBit, magnitude, decide_eq_true_eq]
  split <;> omega

/-- Two words with the same sign and magnitude are the same word. -/
lemma ext_of_key_eq {f g : Double} (hs : f.signBit = g.signBit)
    (hm : f.magnitude = g.magnitude) : f = g := by
  cases f; cases g
  congr
  apply BitVec.eq_of_toNat_eq
  rw [bits_toNat_eq ⟨_⟩, bits_toNat_eq ⟨_⟩, hs, hm]

/-! ## C's relational operators -/

/-- `f == g` on doubles: both ordered and of equal value. -/
def eq (f g : Double) : Bool := !f.isNaN && !g.isNaN && f.key == g.key

/-- `f < g` on doubles. -/
def lt (f g : Double) : Bool := !f.isNaN && !g.isNaN && decide (f.key < g.key)

/-- `f <= g` on doubles. -/
def le (f g : Double) : Bool := !f.isNaN && !g.isNaN && decide (f.key ≤ g.key)

@[simp] lemma eq_eq_true {f g : Double} :
    f.eq g = true ↔ f.isNaN = false ∧ g.isNaN = false ∧ f.key = g.key := by
  simp [eq, and_assoc]

@[simp] lemma lt_eq_true {f g : Double} :
    f.lt g = true ↔ f.isNaN = false ∧ g.isNaN = false ∧ f.key < g.key := by
  simp [lt, and_assoc]

@[simp] lemma le_eq_true {f g : Double} :
    f.le g = true ↔ f.isNaN = false ∧ g.isNaN = false ∧ f.key ≤ g.key := by
  simp [le, and_assoc]

/-- Two ordered doubles are equal, less or greater: exactly one of the three. -/
lemma trichotomy {f g : Double} (hf : f.isNaN = false) (hg : g.isNaN = false) :
    f.eq g = true ∨ f.lt g = true ∨ g.lt f = true := by
  simp only [eq_eq_true, lt_eq_true, hf, hg, true_and]
  omega

/-! ## Sample words -/

/-- `0.0`. -/
def zero : Double := ⟨0#64⟩

/-- `1.0`. -/
def one : Double := ⟨0x3FF0000000000000#64⟩

/-- `2.0`. -/
def two : Double := ⟨0x4000000000000000#64⟩

/-- The quiet NaN `0x7FF8000000000000`: sign bit clear, only the first significand bit set. It
is what C's `NAN` converts to and AArch64's default NaN; x86-64's `0.0 / 0.0` is
`0xFFF8000000000000` instead, with the sign bit set (`x86DefaultNaN`). -/
def nan : Double := ⟨0x7FF8000000000000#64⟩

end Double

end CamlFloats
