import CamlFloats.Rounding

/-!
# Rounding to nearest, ties to even

The hosted build runs in IEEE 754's default rounding direction, roundTiesToEven (§4.3.1, C99's
`FE_TONEAREST`). This file builds it and proves that it obeys the laws of a `Rounding`
(`Rounding.nearestEven`), so every theorem stated over a `Rounding` holds in the direction the
code runs in by default.

On a count `t ≥ 0` of units `2 ^ -1074`, rounding toward zero keeps the magnitude
`m = floorMag ⌊t⌋₊`; roundTiesToEven chooses between `m` and `m + 1` by the midpoint of their
counts, and on the midpoint takes the even one (`tiesToEven`). After the largest finite magnitude
comes the infinity's, of count `2 ^ 2098`: its midpoint with the largest finite double is where
§4.3.1 starts to round to `∞`, and since the largest finite magnitude is odd, the midpoint itself
goes to `∞` as well.

The square root rounds `√X`, `X = v × 2 ^ 2148`, the same way, comparing `X` with the squared
midpoint. On `t ≥ 0` the two agree, `nearestMag t = nearestSqrtMag (t ^ 2)`
(`nearestMag_eq_sqrtMag`), so one monotonicity proof (`nearestSqrtMag_mono`) gives both the
monotonicity of the rounding and the bounds of the square root.

That the choice is the right one is §4.3.1's definition: no finite double is nearer to `q` than a
finite `nearestRnd q` (`nearestRnd_nearest`), and `√v` lies on the side of `nearestSqrt v` of its
midpoint with any other finite double `d ≥ 0` (`nearestSqrt_nearest`).
-/

namespace CamlFloats

open Double

/-- roundTiesToEven between magnitudes `m` and `m + 1`, given whether the point lies below or
above the midpoint of their counts. -/
def tiesToEven (m : Nat) (below above : Bool) : Nat :=
  if below then m else if above then m + 1 else if m % 2 = 0 then m else m + 1

/-- The midpoint of the counts of magnitudes `m` and `m + 1`. -/
def halfway (m : Nat) : ℚ := (scaledOf m + scaledOf (m + 1)) / 2

/-- roundTiesToEven of a count `t ≥ 0` of units `2 ^ -1074`. -/
def nearestMag (t : ℚ) : Nat :=
  let m := floorMag ⌊t⌋₊
  tiesToEven m (decide (t < halfway m)) (decide (halfway m < t))

/-- roundTiesToEven of the square root of a count `X ≥ 0` of units `2 ^ -2148`. -/
def nearestSqrtMag (X : ℚ) : Nat :=
  let m := floorMag (Nat.sqrt ⌊X⌋₊)
  tiesToEven m (decide (X < halfway m ^ 2)) (decide (halfway m ^ 2 < X))

/-- roundTiesToEven (§4.3.1): the magnitude of `q`, in units `2 ^ -1074`, rounds to the nearest
magnitude, ties to even, under the sign of `q`. -/
def nearestRnd (q : ℚ) : Double :=
  ofSignMagnitude (decide (q < 0)) (nearestMag (|q| * 2 ^ 1074))

/-- The square root of `v ≥ 0` rounded to nearest, ties to even. -/
def nearestSqrt (v : ℚ) : Double := ofSignMagnitude false (nearestSqrtMag (v * 2 ^ 2148))

/-! ## The choice between two magnitudes -/

lemma le_tiesToEven (m : Nat) (below above : Bool) : m ≤ tiesToEven m below above := by
  unfold tiesToEven
  split_ifs <;> omega

lemma tiesToEven_le (m : Nat) (below above : Bool) : tiesToEven m below above ≤ m + 1 := by
  unfold tiesToEven
  split_ifs <;> omega

/-- The further past the midpoint `c`, the larger the choice. -/
lemma tiesToEven_mono (m : Nat) {c x y : ℚ} (h : x ≤ y) :
    tiesToEven m (decide (x < c)) (decide (c < x)) ≤
      tiesToEven m (decide (y < c)) (decide (c < y)) := by
  rcases lt_trichotomy x c with hx | rfl | hx
  · calc tiesToEven m (decide (x < c)) (decide (c < x)) = m := by simp [tiesToEven, hx]
      _ ≤ _ := le_tiesToEven _ _ _
  · rcases h.eq_or_lt with rfl | hy
    · rfl
    · calc _ ≤ m + 1 := tiesToEven_le _ _ _
        _ = tiesToEven m (decide (y < x)) (decide (x < y)) := by
          simp [tiesToEven, hy, hy.not_lt]
  · have hy : c < y := hx.trans_le h
    calc _ ≤ m + 1 := tiesToEven_le _ _ _
      _ = tiesToEven m (decide (y < c)) (decide (c < y)) := by simp [tiesToEven, hy, hy.not_lt]

/-- The choice is the lower magnitude at or below the midpoint, and the upper one at or above
it. -/
lemma tiesToEven_cases (m : Nat) (x c : ℚ) :
    (tiesToEven m (decide (x < c)) (decide (c < x)) = m ∧ x ≤ c) ∨
      (tiesToEven m (decide (x < c)) (decide (c < x)) = m + 1 ∧ c ≤ x) := by
  rcases lt_trichotomy x c with h | rfl | h
  · exact .inl ⟨by simp [tiesToEven, h], h.le⟩
  · by_cases he : m % 2 = 0 <;> simp [tiesToEven, he]
  · exact .inr ⟨by simp [tiesToEven, h, h.not_lt], h.le⟩

/-- A choice next to a magnitude that rounding toward zero keeps is at most the infinity's. -/
lemma tiesToEven_floorMag_le (n : Nat) (below above : Bool) :
    tiesToEven (floorMag n) below above ≤ infMagnitude :=
  (tiesToEven_le _ _ _).trans (floorMag_spec n).1

/-! ## Rounding and its square root -/

lemma cast_scaledOf_le {i j : Nat} (h : i ≤ j) : (scaledOf i : ℚ) ≤ scaledOf j :=
  Nat.cast_le.2 (scaledOf_strictMono.monotone h)

lemma nearestMag_le (t : ℚ) : nearestMag t ≤ infMagnitude := tiesToEven_floorMag_le _ _ _

lemma nearestSqrtMag_le (X : ℚ) : nearestSqrtMag X ≤ infMagnitude := tiesToEven_floorMag_le _ _ _

/-- The rounded square root grows with its argument: the magnitude kept toward zero does, and
between two magnitudes the choice does. -/
lemma nearestSqrtMag_mono : Monotone nearestSqrtMag := by
  intro X Y h
  have hm : floorMag (Nat.sqrt ⌊X⌋₊) ≤ floorMag (Nat.sqrt ⌊Y⌋₊) :=
    floorMag_mono (Nat.sqrt_le_sqrt (Nat.floor_mono h))
  rcases hm.lt_or_eq with hlt | heq
  · calc nearestSqrtMag X ≤ floorMag (Nat.sqrt ⌊X⌋₊) + 1 := tiesToEven_le _ _ _
      _ ≤ floorMag (Nat.sqrt ⌊Y⌋₊) := hlt
      _ ≤ nearestSqrtMag Y := le_tiesToEven _ _ _
  · simp only [nearestSqrtMag]
    rw [heq]
    exact tiesToEven_mono _ h

lemma sqrt_floor_sq {t : ℚ} (ht : 0 ≤ t) : Nat.sqrt ⌊t ^ 2⌋₊ = ⌊t⌋₊ := by
  have h₁ := Nat.floor_le ht
  have h₂ := Nat.lt_floor_add_one t
  refine (Nat.eq_sqrt.2 ⟨Nat.le_floor ?_, (Nat.floor_lt (by positivity)).2 ?_⟩).symm <;>
    push_cast <;> rw [sq]
  · exact mul_self_le_mul_self (Nat.cast_nonneg _) h₁
  · exact mul_self_lt_mul_self ht h₂

/-- On `t ≥ 0`, rounding `t` is rounding the square root of `t ^ 2`: both keep `⌊t⌋₊` toward
zero, and squaring keeps the side of the midpoint. -/
lemma nearestMag_eq_sqrtMag {t : ℚ} (ht : 0 ≤ t) : nearestMag t = nearestSqrtMag (t ^ 2) := by
  have hc : 0 ≤ halfway (floorMag ⌊t⌋₊) := by unfold halfway; positivity
  simp only [nearestMag, nearestSqrtMag, sqrt_floor_sq ht, pow_lt_pow_iff_left₀ ht hc two_ne_zero,
    pow_lt_pow_iff_left₀ hc ht two_ne_zero]

lemma nearestMag_mono {x y : ℚ} (hx : 0 ≤ x) (h : x ≤ y) : nearestMag x ≤ nearestMag y := by
  rw [nearestMag_eq_sqrtMag hx, nearestMag_eq_sqrtMag (hx.trans h)]
  exact nearestSqrtMag_mono (pow_le_pow_left₀ hx h 2)

/-- A finite magnitude's own count rounds to it: it lies below the midpoint with the next. -/
lemma nearestMag_scaledOf {M : Nat} (hM : M < infMagnitude) : nearestMag (scaledOf M) = M := by
  have hlt : (scaledOf M : ℚ) < halfway M := by
    have : (scaledOf M : ℚ) < scaledOf (M + 1) := by
      exact_mod_cast scaledOf_strictMono (Nat.lt_succ_self M)
    unfold halfway
    linarith
  simp only [nearestMag, Nat.floor_natCast, floorMag_scaledOf hM, hlt, decide_True, tiesToEven,
    if_true]

/-- roundTiesToEven is a nearest rounding on counts: while the result is finite, no finite
magnitude's count is nearer to `t`. Below the kept magnitude `m` every count is further down, above
`m + 1` every count is further up, and the choice between `m` and `m + 1` is the nearer. -/
lemma nearestMag_nearest {t : ℚ} (ht : 0 ≤ t) (hr : nearestMag t < infMagnitude) {k : Nat}
    (hk : k < infMagnitude) :
    |(scaledOf (nearestMag t) : ℚ) - t| ≤ |(scaledOf k : ℚ) - t| := by
  obtain ⟨m, hm⟩ : ∃ m, m = floorMag ⌊t⌋₊ := ⟨_, rfl⟩
  obtain ⟨-, hlo, hhi⟩ := floorMag_spec ⌊t⌋₊
  rw [← hm] at hlo hhi
  have hlo' : (scaledOf m : ℚ) ≤ t := (Nat.cast_le.2 hlo).trans (Nat.floor_le ht)
  have hhi' : m + 1 < infMagnitude → t < scaledOf (m + 1) := fun h =>
    (Nat.lt_floor_add_one t).trans_le (by exact_mod_cast hhi h)
  -- the result is at most as far from `t` as either neighbour
  have he : |(scaledOf (nearestMag t) : ℚ) - t| ≤ t - scaledOf m ∧
      (m + 1 < infMagnitude → |(scaledOf (nearestMag t) : ℚ) - t| ≤ scaledOf (m + 1) - t) := by
    have hn : nearestMag t = tiesToEven m (decide (t < halfway m)) (decide (halfway m < t)) := by
      rw [hm]
      rfl
    rw [hn] at hr ⊢
    rcases tiesToEven_cases m t (halfway m) with ⟨hr', hmid⟩ | ⟨hr', hmid⟩ <;>
      rw [hr'] at hr ⊢ <;> unfold halfway at hmid
    · rw [abs_sub_comm, abs_of_nonneg (sub_nonneg.2 hlo')]
      exact ⟨le_rfl, fun _ => by linarith⟩
    · rw [abs_of_nonneg (sub_nonneg.2 (hhi' hr).le)]
      exact ⟨by linarith, fun _ => le_rfl⟩
  rcases le_or_lt k m with hkm | hkm
  · -- a count below `m`'s is further down
    exact he.1.trans ((sub_le_sub_left (cast_scaledOf_le hkm) t).trans
      (by rw [← neg_sub]; exact neg_le_abs _))
  · -- a count above `m + 1`'s is further up
    exact (he.2 (by omega)).trans
      ((sub_le_sub_right (cast_scaledOf_le hkm) t).trans (le_abs_self _))

/-- The rounded square root is a nearest rounding of `√X`: the midpoint of the result's count
with a smaller finite magnitude's is at most `√X`, and with a larger one's at least `√X`,
compared through squares. The kept magnitude `m` has `s(m) ^ 2 ≤ X`, and while `m + 1` is
finite, `X < s(m + 1) ^ 2`. -/
lemma nearestSqrtMag_nearest {X : ℚ} (hX : 0 ≤ X) (hr : nearestSqrtMag X < infMagnitude)
    (k : Nat) :
    (k < nearestSqrtMag X → ((scaledOf k + scaledOf (nearestSqrtMag X) : ℚ) / 2) ^ 2 ≤ X) ∧
    (nearestSqrtMag X < k → X ≤ ((scaledOf (nearestSqrtMag X) + scaledOf k : ℚ) / 2) ^ 2) := by
  obtain ⟨m, hm⟩ : ∃ m, m = floorMag (Nat.sqrt ⌊X⌋₊) := ⟨_, rfl⟩
  obtain ⟨-, hlo, hhi⟩ := floorMag_spec (Nat.sqrt ⌊X⌋₊)
  rw [← hm] at hlo hhi
  have h0 : ∀ i j : Nat, (0 : ℚ) ≤ (scaledOf i + scaledOf j : ℚ) / 2 := fun _ _ => by positivity
  have hlo' : (scaledOf m : ℚ) ^ 2 ≤ X :=
    calc (scaledOf m : ℚ) ^ 2 = ((scaledOf m * scaledOf m : ℕ) : ℚ) := by rw [sq, Nat.cast_mul]
      _ ≤ ⌊X⌋₊ := Nat.cast_le.2 (Nat.le_sqrt.1 hlo)
      _ ≤ X := Nat.floor_le hX
  have hhi' : m + 1 < infMagnitude → X < (scaledOf (m + 1) : ℚ) ^ 2 := fun h =>
    calc X < ⌊X⌋₊ + 1 := Nat.lt_floor_add_one X
      _ ≤ ((scaledOf (m + 1) * scaledOf (m + 1) : ℕ) : ℚ) := by
        exact_mod_cast Nat.succ_le_of_lt (Nat.sqrt_lt.1 (hhi h))
      _ = (scaledOf (m + 1) : ℚ) ^ 2 := by rw [sq, Nat.cast_mul]
  have hn : nearestSqrtMag X =
      tiesToEven m (decide (X < halfway m ^ 2)) (decide (halfway m ^ 2 < X)) := by
    rw [hm]
    rfl
  rw [hn] at hr ⊢
  rcases tiesToEven_cases m X (halfway m ^ 2) with ⟨hr', hmid⟩ | ⟨hr', hmid⟩ <;>
    rw [hr'] at hr ⊢ <;> unfold halfway at hmid <;> refine ⟨fun hkm => ?_, fun hkm => ?_⟩
  · -- below `m`: the midpoint is at most `s(m) ≤ √X`
    have := cast_scaledOf_le hkm.le
    calc ((scaledOf k + scaledOf m : ℚ) / 2) ^ 2 ≤ (scaledOf m : ℚ) ^ 2 :=
          pow_le_pow_left₀ (h0 _ _) (by linarith) 2
      _ ≤ X := hlo'
  · -- above `m`: the midpoint is past `m`'s midpoint with `m + 1`
    have := cast_scaledOf_le (show m + 1 ≤ k by omega)
    calc X ≤ ((scaledOf m + scaledOf (m + 1) : ℚ) / 2) ^ 2 := hmid
      _ ≤ ((scaledOf m + scaledOf k : ℚ) / 2) ^ 2 :=
          pow_le_pow_left₀ (h0 _ _) (by linarith) 2
  · -- below `m + 1`: the midpoint is at most `m`'s midpoint with `m + 1`
    have := cast_scaledOf_le (show k ≤ m by omega)
    calc ((scaledOf k + scaledOf (m + 1) : ℚ) / 2) ^ 2 ≤
          ((scaledOf m + scaledOf (m + 1) : ℚ) / 2) ^ 2 :=
          pow_le_pow_left₀ (h0 _ _) (by linarith) 2
      _ ≤ X := hmid
  · -- above `m + 1`: the midpoint is at least `s(m + 1) > √X`
    have := cast_scaledOf_le hkm.le
    calc X ≤ (scaledOf (m + 1) : ℚ) ^ 2 := (hhi' hr).le
      _ ≤ ((scaledOf (m + 1) + scaledOf k : ℚ) / 2) ^ 2 :=
          pow_le_pow_left₀ (Nat.cast_nonneg _) (by linarith) 2

/-! ## The laws -/

namespace Double

lemma isNaN_ofSignMagnitude (s : Bool) {M : Nat} (hM : M ≤ infMagnitude) :
    (ofSignMagnitude s M).isNaN = false := by
  rw [isNaN_eq, magnitude_ofSignMagnitude _ (lt_of_le_of_lt hM (by decide))]
  simp only [infMagnitude] at hM
  simp only [ne_eq, Bool.and_eq_false_iff, decide_eq_false_iff_not, Decidable.not_not]
  omega

lemma key_ofSignMagnitude (s : Bool) {M : Nat} (hM : M ≤ infMagnitude) :
    (ofSignMagnitude s M).key = if s then -(M : Int) else M := by
  have hM' : M < 2 ^ 63 := lt_of_le_of_lt hM (by decide)
  simp only [key, signBit_ofSignMagnitude _ hM', magnitude_ofSignMagnitude _ hM']

end Double

lemma nearestRnd_not_isNaN (q : ℚ) : (nearestRnd q).isNaN = false :=
  isNaN_ofSignMagnitude _ (nearestMag_le _)

lemma nearestSqrt_not_isNaN (v : ℚ) : (nearestSqrt v).isNaN = false :=
  isNaN_ofSignMagnitude _ (nearestSqrtMag_le _)

lemma key_nearestRnd (q : ℚ) :
    (nearestRnd q).key =
      if q < 0 then -(nearestMag (|q| * 2 ^ 1074) : Int) else nearestMag (|q| * 2 ^ 1074) := by
  rw [nearestRnd, key_ofSignMagnitude _ (nearestMag_le _)]
  simp only [decide_eq_true_eq]

/-- roundTiesToEven is a nearest rounding (§4.3.1): while `nearestRnd q` is finite, no finite
double is nearer to `q`. Against a finite `d`, compare `|d|` with `|q|` in units `2 ^ -1074`. -/
lemma nearestRnd_nearest (q : ℚ) (hr : (nearestRnd q).isFinite = true) {d : Double}
    (hd : d.isFinite = true) : |(nearestRnd q).value - q| ≤ |d.value - q| := by
  set r := nearestMag (|q| * 2 ^ 1074)
  have hr' : r < 2 ^ 63 := lt_of_le_of_lt (nearestMag_le _) (by decide)
  have hrI : r < infMagnitude := by
    rwa [isFinite_iff, nearestRnd, magnitude_ofSignMagnitude _ hr'] at hr
  have hc : (0 : ℚ) < 2 ^ 1074 := by positivity
  have hdiv : ∀ x : ℚ, |(x / 2 ^ 1074 - |q|)| = |(x - |q| * 2 ^ 1074)| / 2 ^ 1074 := fun x => by
    rw [show x / 2 ^ 1074 - |q| = (x - |q| * 2 ^ 1074) / 2 ^ 1074 by
      rw [sub_div, mul_div_cancel_right₀ _ hc.ne'], abs_div, abs_of_pos hc]
  have hnear : |((scaledOf r : ℚ) / 2 ^ 1074 - |q|)| ≤
      |((scaledOf d.magnitude : ℚ) / 2 ^ 1074 - |q|)| := by
    rw [hdiv, hdiv]
    exact div_le_div_of_nonneg_right
      (nearestMag_nearest (mul_nonneg (abs_nonneg q) hc.le) hrI ((isFinite_iff d).1 hd)) hc.le
  have hval : |(nearestRnd q).value - q| = |((scaledOf r : ℚ) / 2 ^ 1074 - |q|)| := by
    rw [value_eq_sign_mul, nearestRnd, signBit_ofSignMagnitude _ hr',
      magnitude_ofSignMagnitude _ hr']
    by_cases hq : q < 0
    · simp only [hq, decide_True, if_true, neg_one_mul, abs_of_neg hq]
      rw [← abs_neg, neg_sub, sub_neg_eq_add, sub_neg_eq_add, add_comm]
    · simp only [hq, decide_False, Bool.false_eq_true, if_false, one_mul,
        abs_of_nonneg (not_lt.1 hq)]
  calc |(nearestRnd q).value - q| = |((scaledOf r : ℚ) / 2 ^ 1074 - |q|)| := hval
    _ ≤ |((scaledOf d.magnitude : ℚ) / 2 ^ 1074 - |q|)| := hnear
    _ = |(|d.value| - |q|)| := by rw [abs_value]
    _ ≤ |d.value - q| := abs_abs_sub_abs_le_abs_sub _ _

/-- roundTiesToEven of a square root is a nearest rounding (§5.4.1): against a finite double
`d ≥ 0` below the result, `√v` is at or past their midpoint, and against one above it, at or
before their midpoint, compared through squares. -/
lemma nearestSqrt_nearest {v : ℚ} (hv : 0 ≤ v) (hr : (nearestSqrt v).isFinite = true)
    {d : Double} (hd₀ : 0 ≤ d.value) :
    (d.value < (nearestSqrt v).value → ((d.value + (nearestSqrt v).value) / 2) ^ 2 ≤ v) ∧
    ((nearestSqrt v).value < d.value → v ≤ (((nearestSqrt v).value + d.value) / 2) ^ 2) := by
  set r := nearestSqrtMag (v * 2 ^ 2148)
  have hr' : r < 2 ^ 63 := lt_of_le_of_lt (nearestSqrtMag_le _) (by decide)
  have hrI : r < infMagnitude := by
    rwa [isFinite_iff, nearestSqrt, magnitude_ofSignMagnitude _ hr'] at hr
  have hc : (0 : ℚ) < 2 ^ 1074 := by positivity
  have hrv : (nearestSqrt v).value = scaledOf r / 2 ^ 1074 := by
    rw [value_eq_sign_mul, nearestSqrt, signBit_ofSignMagnitude _ hr',
      magnitude_ofSignMagnitude _ hr', if_neg (by decide), one_mul]
  have hmid : ∀ x y : ℚ,
      ((x / 2 ^ 1074 + y / 2 ^ 1074) / 2) ^ 2 = ((x + y) / 2) ^ 2 / 2 ^ 2148 := fun x y => by
    rw [div_add_div_same, div_right_comm, div_pow, ← pow_mul]
  have hlt : ∀ i j : Nat, (scaledOf i : ℚ) / 2 ^ 1074 < scaledOf j / 2 ^ 1074 ↔ i < j :=
    fun i j => by rw [div_lt_div_iff_of_pos_right hc, Nat.cast_lt, scaledOf_strictMono.lt_iff_lt]
  rw [hrv, value_of_nonneg hd₀, hmid, hmid, div_le_iff₀ (by positivity),
    le_div_iff₀ (by positivity), hlt, hlt]
  exact nearestSqrtMag_nearest (mul_nonneg hv (by positivity)) hrI d.magnitude

lemma nearestMag_zero : nearestMag 0 = 0 := by
  have := nearestMag_scaledOf (show 0 < infMagnitude by decide)
  rwa [scaledOf_zero, Nat.cast_zero] at this

/-- roundTiesToEven is symmetric: `-q` rounds to the negation of `q`'s rounding, up to the sign
of a zero. -/
lemma key_nearestRnd_neg (q : ℚ) : (nearestRnd (-q)).key = -(nearestRnd q).key := by
  rw [key_nearestRnd, key_nearestRnd, abs_neg]
  rcases lt_trichotomy q 0 with h | rfl | h
  · simp [h, h.le]
  · simp [nearestMag_zero]
  · simp [h, h.le, not_lt.2 h.le]

/-- Rounding to nearest is monotone: the magnitude grows with `|q|`, under each sign. -/
lemma nearestRnd_mono {p q : ℚ} (h : p ≤ q) :
    (nearestRnd p).extValue ≤ (nearestRnd q).extValue := by
  rw [extValue_le_iff (nearestRnd_not_isNaN p) (nearestRnd_not_isNaN q), key_nearestRnd,
    key_nearestRnd]
  have hc : (0 : ℚ) ≤ 2 ^ 1074 := by positivity
  by_cases hq0 : q < 0
  · have hp0 : p < 0 := h.trans_lt hq0
    have := nearestMag_mono (mul_nonneg (abs_nonneg q) hc) (mul_le_mul_of_nonneg_right
      (show |q| ≤ |p| by rw [abs_of_neg hp0, abs_of_neg hq0]; linarith) hc)
    simp only [hp0, hq0, if_true]
    omega
  · by_cases hp0 : p < 0
    · simp only [hp0, hq0, if_true, if_false]
      omega
    · have := nearestMag_mono (mul_nonneg (abs_nonneg p) hc) (mul_le_mul_of_nonneg_right
        (show |p| ≤ |q| by rw [abs_of_nonneg (not_lt.1 hp0), abs_of_nonneg (not_lt.1 hq0)]; exact h)
        hc)
      simp only [hp0, hq0, if_false]
      omega

/-- Rounding to nearest returns the value of a finite double as that double, up to the sign of
a zero. -/
lemma nearestRnd_exact (d : Double) (hd : d.isFinite = true) :
    (nearestRnd d.value).extValue = d.extValue := by
  rw [extValue_eq_iff (nearestRnd_not_isNaN _) (isNaN_of_isFinite hd), key_nearestRnd, abs_value,
    div_mul_cancel₀ _ (by positivity), nearestMag_scaledOf ((isFinite_iff d).1 hd)]
  rcases Nat.eq_zero_or_pos d.magnitude with h0 | hpos
  · simp [key, h0]
  · have hs : (0 : ℚ) < scaledOf d.magnitude / 2 ^ 1074 := by
      have := scaledOf_strictMono hpos
      rw [scaledOf_zero] at this
      positivity
    cases hsb : d.signBit <;> simp [key, hsb, value_eq_sign_mul, hs, hs.le]

/-- The rounded square root of `v` lies between the roundings of the rationals below and above
`√v`. -/
lemma nearestSqrt_bounds {v q : ℚ} (_hv : 0 ≤ v) (hq : 0 ≤ q) :
    (q ^ 2 ≤ v → (nearestRnd q).extValue ≤ (nearestSqrt v).extValue) ∧
    (v ≤ q ^ 2 → (nearestSqrt v).extValue ≤ (nearestRnd q).extValue) := by
  have hns := nearestSqrt_not_isNaN v
  have hkq : (nearestRnd q).key = nearestSqrtMag (q ^ 2 * 2 ^ 2148) := by
    rw [key_nearestRnd, if_neg (not_lt.2 hq), abs_of_nonneg hq,
      nearestMag_eq_sqrtMag (by positivity)]
    congr 2
    ring
  have hkv : (nearestSqrt v).key = nearestSqrtMag (v * 2 ^ 2148) := by
    rw [nearestSqrt, key_ofSignMagnitude _ (nearestSqrtMag_le _), if_neg (by decide)]
  rw [extValue_le_iff (nearestRnd_not_isNaN q) hns, extValue_le_iff hns (nearestRnd_not_isNaN q),
    hkq, hkv, Nat.cast_le, Nat.cast_le]
  have hc : (0 : ℚ) ≤ 2 ^ 2148 := by positivity
  exact ⟨fun h => nearestSqrtMag_mono (mul_le_mul_of_nonneg_right h hc),
    fun h => nearestSqrtMag_mono (mul_le_mul_of_nonneg_right h hc)⟩

/-- Rounding to nearest, ties to even, IEEE 754's default roundTiesToEven, with x86-64's NaNs:
the laws of a rounding hold. -/
def Rounding.nearestEven : Rounding where
  rnd := nearestRnd
  rndSqrt := nearestSqrt
  nanOf := x86NaN
  defaultNaN := x86DefaultNaN
  zeroSumSign := false
  rnd_not_isNaN := nearestRnd_not_isNaN
  rnd_mono := nearestRnd_mono
  rnd_exact := nearestRnd_exact
  rndSqrt_not_isNaN := nearestSqrt_not_isNaN
  rndSqrt_bounds := nearestSqrt_bounds
  nanOf_isNaN := isNaN_x86NaN
  defaultNaN_isNaN := by decide

end CamlFloats
