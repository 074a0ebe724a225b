import CamlFloats.Compare

/-!
# The values doubles denote, and C's comparisons on them

`Double.lean` orders words by `key`, the magnitude bits with the sign applied; C's `==`, `<`
and `<=` are IEEE 754's comparisons of the numbers the words denote. This file says what a word
denotes (IEEE 754-2008 §3.4: `± significand × 2 ^ (max exponent 1 - 1075)`, or an infinity for
the all-ones exponent) and proves that the key order is the value order: on two words that are
not NaNs, `Double.eq`, `Double.lt` and `Double.le` are `=`, `<` and `≤` of their values
(`relations_extValue`), and `caml_float_compare` of the hosted build is the three-way comparison
of the values (`caml_float_compare_extValue`).

The proof goes through integers. In units of the least subnormal, `2 ^ -1074`, a finite word's
absolute value is `scaledOf` of its magnitude bits; `scaledOf` is strictly increasing (each
exponent step doubles the unit, and the hidden bit makes up the difference), so
`signedScaled`, the same with the sign applied, is strictly increasing on keys.
-/

namespace CamlFloats

/-! ## Magnitudes in units of the least subnormal -/

/-- The absolute value, in units of `2 ^ -1074`, of the magnitude bits `M`: the significand,
with the hidden bit for a nonzero exponent, scaled by the exponent above `1`. -/
def scaledOf (M : Nat) : Nat :=
  (if M / 2 ^ 52 = 0 then M % 2 ^ 52 else 2 ^ 52 + M % 2 ^ 52) * 2 ^ (max (M / 2 ^ 52) 1 - 1)

lemma scaledOf_zero : scaledOf 0 = 0 := rfl

/-- Across exponents, in units of the least subnormal: a larger exponent field gives a larger
value whatever the significands, since each step doubles the unit and a significand, hidden bit
`B` included, stays below `2 * B`. -/
lemma scaled_lt_of_exponent_lt {B e₁ e₂ m₁ m₂ : Nat} (hm₁ : m₁ < B) (he : e₁ < e₂) :
    (if e₁ = 0 then m₁ else B + m₁) * 2 ^ (max e₁ 1 - 1) <
      (if e₂ = 0 then m₂ else B + m₂) * 2 ^ (max e₂ 1 - 1) := by
  rw [if_neg (by omega : e₂ ≠ 0), show max e₂ 1 - 1 = e₂ - 1 by omega]
  split_ifs with h₁
  · subst h₁
    calc m₁ * 2 ^ (max 0 1 - 1) = m₁ := by simp
      _ < B * 1 := by omega
      _ ≤ (B + m₂) * 2 ^ (e₂ - 1) := Nat.mul_le_mul (by omega) Nat.one_le_two_pow
  · rw [show max e₁ 1 - 1 = e₁ - 1 by omega]
    calc (B + m₁) * 2 ^ (e₁ - 1) < (B + B) * 2 ^ (e₁ - 1) :=
          Nat.mul_lt_mul_of_pos_right (by omega) (Nat.two_pow_pos _)
      _ = B * 2 ^ (e₁ - 1 + 1) := by rw [pow_succ]; ring
      _ ≤ B * 2 ^ (e₂ - 1) :=
          Nat.mul_le_mul_left _ (Nat.pow_le_pow_right (by norm_num) (by omega))
      _ ≤ (B + m₂) * 2 ^ (e₂ - 1) := Nat.mul_le_mul_right _ (by omega)

/-- `scaledOf` grows with the magnitude bits: within one exponent the significand decides, and
across exponents `scaled_lt_of_exponent_lt`. -/
lemma scaledOf_strictMono : StrictMono scaledOf := by
  intro M N h
  have hm := Nat.mod_lt M (show 0 < 2 ^ 52 by norm_num)
  have hle : M / 2 ^ 52 ≤ N / 2 ^ 52 := Nat.div_le_div_right h.le
  rcases hle.eq_or_lt with he | he
  · simp only [scaledOf, he]
    exact Nat.mul_lt_mul_of_pos_right (by split <;> omega) (Nat.two_pow_pos _)
  · exact scaled_lt_of_exponent_lt hm he

/-- `scaledOf` with a sign: a key in, the signed value in units of `2 ^ -1074` out. -/
def signedScaled (k : Int) : Int :=
  if k < 0 then -(scaledOf (-k).toNat : Int) else scaledOf k.toNat

lemma signedScaled_strictMono : StrictMono signedScaled := by
  intro k l h
  have hmono := scaledOf_strictMono
  simp only [signedScaled]
  split_ifs with hk hl hl
  · have := hmono (show (-l).toNat < (-k).toNat by omega)
    omega
  · have := hmono.monotone (Nat.zero_le (-k).toNat)
    have := hmono.monotone (Nat.zero_le l.toNat)
    have := hmono (show 0 < (-k).toNat by omega)
    simp only [scaledOf_zero] at *
    omega
  · omega
  · have := hmono (show k.toNat < l.toNat by omega)
    omega

/-! ## What a word denotes -/

namespace Double

/-- The integral significand: the trailing significand, with the hidden bit `2 ^ 52` when the
exponent field is not `0`. -/
def significand (d : Double) : Nat := if d.exponent = 0 then d.mantissa else 2 ^ 52 + d.mantissa

/-- The value of a finite word, `± significand × 2 ^ (max exponent 1 - 1075)`; both zeros are
`0`. -/
def value (d : Double) : ℚ :=
  (if d.signBit then -1 else 1) * d.significand * 2 ^ (max (d.exponent : Int) 1 - 1075)

/-- What a word that is not a NaN denotes: its value, or the infinity of its sign when the
exponent field is all ones. -/
def extValue (d : Double) : WithBot (WithTop ℚ) :=
  if d.exponent = 2047 then (if d.signBit then ⊥ else ⊤)
  else ((d.value : WithTop ℚ) : WithBot _)

/-- The magnitude bits, `2047 * 2 ^ 52`, of both infinities. -/
def infMagnitude : Nat := 2047 * 2 ^ 52

lemma exponent_eq (d : Double) : d.exponent = d.magnitude / 2 ^ 52 := by
  rw [magnitude_eq]
  have := Nat.mod_lt d.bits.toNat (show 0 < 2 ^ 52 by norm_num)
  simp only [mantissa] at *
  omega

lemma mantissa_eq (d : Double) : d.mantissa = d.magnitude % 2 ^ 52 := by
  rw [magnitude_eq]
  have := Nat.mod_lt d.bits.toNat (show 0 < 2 ^ 52 by norm_num)
  simp only [mantissa] at *
  omega

lemma exponent_lt (d : Double) : d.exponent < 2048 := Nat.mod_lt _ (by norm_num)

lemma two_zpow_eq (e : Nat) :
    (2 : ℚ) ^ (max (e : Int) 1 - 1075) = 2 ^ (max e 1 - 1) / 2 ^ 1074 := by
  rw [show max (e : Int) 1 - 1075 = ((max e 1 - 1 : Nat) : Int) - 1074 by omega,
    zpow_sub₀ two_ne_zero, zpow_natCast, zpow_ofNat]

/-- The value is the signed scaled key over `2 ^ 1074`. -/
lemma value_eq (d : Double) : d.value = signedScaled d.key / 2 ^ 1074 := by
  have hs : d.significand * 2 ^ (max d.exponent 1 - 1) = scaledOf d.magnitude := by
    simp only [significand, scaledOf, ← exponent_eq, ← mantissa_eq]
  have hk : signedScaled d.key = (if d.signBit then -1 else 1) * (scaledOf d.magnitude : Int) := by
    simp only [key, signedScaled]
    split_ifs with h₁ h₂ h₂
    · simp
    · rw [show d.magnitude = 0 by omega]
      simp [scaledOf_zero]
    · omega
    · simp
  rw [value, two_zpow_eq, hk, ← hs]
  push_cast
  ring

/-- A word that is not a NaN has magnitude bits at most those of the infinities, and equal to
them exactly for an infinity. -/
lemma magnitude_le_inf {d : Double} (hd : d.isNaN = false) :
    d.magnitude ≤ infMagnitude ∧ (d.exponent = 2047 ↔ d.magnitude = infMagnitude) := by
  have he := d.exponent_lt
  have hm := Nat.mod_lt d.bits.toNat (show 0 < 2 ^ 52 by norm_num)
  simp only [isNaN, Bool.and_eq_false_iff, decide_eq_false_iff_not, bne_iff_ne, ne_eq,
    Decidable.not_not] at hd
  rw [magnitude_eq, infMagnitude]
  simp only [mantissa] at *
  omega

lemma magnitude_lt (d : Double) : d.magnitude < 2 ^ 63 := Nat.mod_lt _ (by norm_num)

/-- Whether a word is a NaN depends on its magnitude bits only. -/
lemma isNaN_eq (d : Double) :
    d.isNaN = (d.magnitude / 2 ^ 52 = 2047 && d.magnitude % 2 ^ 52 ≠ 0) := by
  rw [isNaN, exponent_eq, mantissa_eq]

/-- The value depends on the sign and the magnitude bits only. -/
lemma value_eq_sign_mul (d : Double) :
    d.value = (if d.signBit then -1 else 1) * (scaledOf d.magnitude / 2 ^ 1074 : ℚ) := by
  rw [value_eq, key, signedScaled]
  split_ifs with hs hk hk
  · rw [neg_neg, Int.toNat_ofNat]
    push_cast
    ring
  · rw [show d.magnitude = 0 by omega]
    simp [scaledOf_zero]
  · omega
  · simp

/-- The absolute value is the scaled magnitude over `2 ^ 1074`. -/
lemma abs_value (d : Double) : |d.value| = scaledOf d.magnitude / 2 ^ 1074 := by
  rw [value_eq_sign_mul]
  split <;> simp [abs_of_nonneg (by positivity : (0 : ℚ) ≤ scaledOf d.magnitude / 2 ^ 1074)]

/-! ## Keys and values -/

/-- The extended value at the key `k`: the infinities at the infinities' keys, and otherwise
`signedScaled k / 2 ^ 1074`. -/
def extOfKey (k : Int) : WithBot (WithTop ℚ) :=
  if (infMagnitude : Int) ≤ k then ⊤
  else if k ≤ -(infMagnitude : Int) then ⊥
  else (((signedScaled k / 2 ^ 1074 : ℚ) : WithTop ℚ) : WithBot _)

lemma extOfKey_strictMonoOn :
    StrictMonoOn extOfKey (Set.Icc (-(infMagnitude : Int)) infMagnitude) := by
  intro k hk l hl h
  simp only [Set.mem_Icc] at hk hl
  simp only [extOfKey]
  split_ifs <;> first | omega | skip
  · exact bot_lt_top
  · exact WithBot.bot_lt_coe _
  · exact WithBot.coe_lt_coe.2 (WithTop.coe_lt_top _)
  · refine WithBot.coe_lt_coe.2 (WithTop.coe_lt_coe.2 ?_)
    exact div_lt_div_of_pos_right (by exact_mod_cast signedScaled_strictMono h) (by positivity)

lemma key_mem_Icc {d : Double} (hd : d.isNaN = false) :
    d.key ∈ Set.Icc (-(infMagnitude : Int)) infMagnitude := by
  have := (magnitude_le_inf hd).1
  simp only [key, Set.mem_Icc]
  split <;> omega

/-- A word that is not a NaN denotes the extended value at its key. -/
lemma extValue_eq {d : Double} (hd : d.isNaN = false) : d.extValue = extOfKey d.key := by
  obtain ⟨hle, hinf⟩ := magnitude_le_inf hd
  have hpos : 0 < infMagnitude := by decide
  simp only [extValue, extOfKey, key, hinf, value_eq]
  split_ifs <;> first | rfl | omega

lemma extValue_eq_iff {f g : Double} (hf : f.isNaN = false) (hg : g.isNaN = false) :
    f.extValue = g.extValue ↔ f.key = g.key := by
  rw [extValue_eq hf, extValue_eq hg]
  exact extOfKey_strictMonoOn.injOn.eq_iff (key_mem_Icc hf) (key_mem_Icc hg)

lemma extValue_lt_iff {f g : Double} (hf : f.isNaN = false) (hg : g.isNaN = false) :
    f.extValue < g.extValue ↔ f.key < g.key := by
  rw [extValue_eq hf, extValue_eq hg]
  exact extOfKey_strictMonoOn.lt_iff_lt (key_mem_Icc hf) (key_mem_Icc hg)

lemma extValue_le_iff {f g : Double} (hf : f.isNaN = false) (hg : g.isNaN = false) :
    f.extValue ≤ g.extValue ↔ f.key ≤ g.key := by
  rw [extValue_eq hf, extValue_eq hg]
  exact extOfKey_strictMonoOn.le_iff_le (key_mem_Icc hf) (key_mem_Icc hg)

/-- On words that are not NaNs, C's `==`, `<` and `<=` are `=`, `<` and `≤` of the values the
words denote. -/
theorem relations_extValue {f g : Double} (hf : f.isNaN = false) (hg : g.isNaN = false) :
    (f.eq g = true ↔ f.extValue = g.extValue) ∧ (f.lt g = true ↔ f.extValue < g.extValue) ∧
    (f.le g = true ↔ f.extValue ≤ g.extValue) := by
  simp [extValue_eq_iff hf hg, extValue_lt_iff hf hg, extValue_le_iff hf hg, hf, hg]

/-- `relations_extValue` at `1.0` and `2.0`. -/
theorem relations_extValue_one_two :
    one.isNaN = false ∧ two.isNaN = false ∧
    (one.eq two = true ↔ one.extValue = two.extValue) ∧
    (one.lt two = true ↔ one.extValue < two.extValue) ∧
    (one.le two = true ↔ one.extValue ≤ two.extValue) :=
  ⟨by decide, by decide, relations_extValue (by decide) (by decide)⟩

end Double

/-- The hosted `caml_float_compare` is `0` when a NaN is involved, and otherwise the three-way
comparison of the values the operands denote. -/
theorem caml_float_compare_extValue (f g : Double) :
    caml_float_compare hosted f g =
      if f.isNaN || g.isNaN then 0
      else if f.extValue = g.extValue then 0 else if f.extValue < g.extValue then -1 else 1 := by
  rw [caml_float_compare_hosted]
  cases hf : f.isNaN <;> cases hg : g.isNaN <;> simp only [Bool.or_self, Bool.or_true,
    Bool.true_or, if_true, Bool.false_eq_true, if_false]
  simp only [Double.extValue_eq_iff hf hg, Double.extValue_lt_iff hf hg]

end CamlFloats
