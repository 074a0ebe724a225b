import CamlFloats.Double

/-!
# The relational primitives and `caml_float_compare`

`caml_eq_float`, `caml_neq_float`, `caml_le_float`, `caml_lt_float`, `caml_ge_float` and
`caml_gt_float` unbox their operands and apply one C relational operator;
`caml_float_compare` chains `==`, `<` and `>`. Each relational primitive has one body for the
hosted build, where `__double` is `double`, and one under `__FreeBSD__ && _KERNEL`, where
`<fixmath.h>` (not among the sources) makes `__double` a fixed-point number. A `Build` fixes
`__double`, the operators on it and which body is compiled. The kernel's type is a parameter
with a linear order: a fixed-point number is an integer, and C orders it as one.

The two bodies are the same except in `caml_lt_float`, whose kernel branch tests `<=`.

* `caml_float_compare_hosted` computes the hosted comparison from the operands' keys; from it,
  `caml_float_compare` is reflexive and antisymmetric on every double, and transitive through
  every middle operand that is not a NaN (`caml_float_compare_preorder`).
* The comment in `caml_float_compare` orders NaNs by "NaN = NaN and NaN < x for all other floats
  x", but the two lines that would do so are under `#if 0`: a NaN compares `0` with every
  double, so `2.0`, a NaN and `1.0` make a chain that the comparison does not close
  (`caml_float_compare_nan_chain`). With the `#if 0` lines compiled the comparison would be the
  total preorder the comment describes, and agree with the compiled one off the NaNs
  (`caml_float_compare_nanLeast_total`).
* `hosted_relations_agree`: in the hosted build the six predicates agree with each other and
  with `caml_float_compare`.
* `kernel_relations_agree` says the same of the kernel build for all but `caml_lt_float`,
  which is `caml_le_float` there (`caml_lt_float_kernel`), so it holds of equal operands.
-/

namespace CamlFloats

/-- What a build of `floats.c` fixes for the comparison primitives: the type `__double`, C's
`==`, `<` and `<=` on it, and whether `__FreeBSD__ && _KERNEL` holds. C defines `!=`, `>` and
`>=` as `!(a == b)`, `b < a` and `b <= a`. -/
structure Build (D : Type) where
  eq : D → D → Bool
  lt : D → D → Bool
  le : D → D → Bool
  kernel : Bool

/-- The hosted build: `__double` is `double`, with IEEE 754's comparisons. -/
def hosted : Build Double := ⟨Double.eq, Double.lt, Double.le, false⟩

/-- The kernel build: `__double` is `<fixmath.h>`'s fixed-point type, linearly ordered. -/
def kernel (D : Type) [LinearOrder D] : Build D :=
  ⟨fun a b => decide (a = b), fun a b => decide (a < b), fun a b => decide (a ≤ b), true⟩

section Primitives

variable {D : Type} (B : Build D)

/-- `caml_eq_float`: `f == g`. -/
def caml_eq_float (f g : D) : Bool := B.eq f g

/-- `caml_neq_float`: `f != g`. -/
def caml_neq_float (f g : D) : Bool := !B.eq f g

/-- `caml_le_float`: `f <= g`. -/
def caml_le_float (f g : D) : Bool := B.le f g

/-- `caml_lt_float`: `f < g` when hosted, but `f <= g` in the kernel branch. -/
def caml_lt_float (f g : D) : Bool := if B.kernel then B.le f g else B.lt f g

/-- `caml_ge_float`: `f >= g`. -/
def caml_ge_float (f g : D) : Bool := B.le g f

/-- `caml_gt_float`: `f > g`. -/
def caml_gt_float (f g : D) : Bool := B.lt g f

/-- `caml_float_compare`: `0` if `f == g`, `-1` if `f < g`, `1` if `f > g`, and `0` when none
holds. The `#if 0` branch, which would put a NaN below every other float, is not compiled. -/
def caml_float_compare (f g : D) : Int :=
  if B.eq f g then 0 else if B.lt f g then -1 else if B.lt g f then 1 else 0

/-- `caml_float_compare` with its `#if 0` lines compiled: when none of `==`, `<` and `>` holds,
`1` if `f == f` (only `g` is a NaN), `-1` if `g == g` (only `f` is), and `0` for two NaNs. -/
def caml_float_compare_nanLeast (f g : D) : Int :=
  if B.eq f g then 0 else if B.lt f g then -1 else if B.lt g f then 1
  else if B.eq f f then 1 else if B.eq g g then -1 else 0

end Primitives

/-! ## The hosted comparison -/

/-- The hosted `caml_float_compare` is `0` on a NaN operand and compares keys otherwise. -/
lemma caml_float_compare_hosted (f g : Double) :
    caml_float_compare hosted f g =
      if f.isNaN || g.isNaN then 0
      else if f.key = g.key then 0 else if f.key < g.key then -1 else 1 := by
  cases hf : f.isNaN <;> cases hg : g.isNaN <;>
    simp [caml_float_compare, hosted, Double.eq, Double.lt, hf, hg]
  split_ifs <;> omega

/-- The three-way comparison of two keys is at most `0` exactly when the first is at most the
second. -/
lemma compare_keys_nonpos_iff (x y : Int) :
    (if x = y then 0 else if x < y then -1 else 1 : Int) ≤ 0 ↔ x ≤ y := by
  split_ifs <;> omega

/-- Swapping two keys negates their three-way comparison. -/
lemma compare_keys_swap (x y : Int) :
    (if x = y then 0 else if x < y then -1 else 1 : Int) =
      -(if y = x then 0 else if y < x then -1 else 1 : Int) := by
  split_ifs <;> omega

/-- `caml_float_compare` is reflexive and antisymmetric on every double, NaN included, and
`caml_float_compare f g ≤ 0` is transitive through every middle operand that is not a NaN. -/
theorem caml_float_compare_preorder :
    (∀ f : Double, caml_float_compare hosted f f = 0) ∧
    (∀ f g : Double, caml_float_compare hosted f g = -caml_float_compare hosted g f) ∧
    (∀ f g h : Double, g.isNaN = false → caml_float_compare hosted f g ≤ 0 →
      caml_float_compare hosted g h ≤ 0 → caml_float_compare hosted f h ≤ 0) := by
  simp only [caml_float_compare_hosted]
  refine ⟨fun f => by simp, fun f g => ?_, fun f g h hg => ?_⟩
  · cases f.isNaN <;> cases g.isNaN <;> simp only [Bool.or_true, Bool.or_false, if_true,
      Bool.false_eq_true, if_false, neg_zero]
    exact compare_keys_swap _ _
  · cases f.isNaN <;> cases h.isNaN <;> simp only [hg, Bool.or_true, Bool.or_false, Bool.true_or,
      Bool.false_eq_true, if_true, if_false, compare_keys_nonpos_iff] <;> omega

/-- A chain through a NaN: `caml_float_compare` is `0` from `2.0` to a NaN and from the NaN to
`1.0`, where the comment's convention gives `1` and `-1`, yet it is `1` from `2.0` to `1.0`. -/
theorem caml_float_compare_nan_chain :
    caml_float_compare hosted Double.two Double.nan = 0 ∧
    caml_float_compare hosted Double.nan Double.one = 0 ∧
    caml_float_compare hosted Double.two Double.one = 1 := by
  decide

/-- `caml_float_compare_preorder`'s chain at `1.0 ≤ 2.0 ≤ 2.0`. -/
theorem caml_float_compare_preorder_one_two :
    Double.two.isNaN = false ∧ caml_float_compare hosted Double.one Double.two ≤ 0 ∧
    caml_float_compare hosted Double.two Double.two ≤ 0 ∧
    caml_float_compare hosted Double.one Double.two ≤ 0 :=
  ⟨by decide, by decide, by decide,
    caml_float_compare_preorder.2.2 Double.one Double.two Double.two (by decide) (by decide)
      (by decide)⟩

/-- With the `#if 0` lines compiled, the hosted comparison puts every NaN below every other
double and compares keys otherwise. -/
lemma caml_float_compare_nanLeast_hosted (f g : Double) :
    caml_float_compare_nanLeast hosted f g =
      if f.isNaN then (if g.isNaN then 0 else -1) else if g.isNaN then 1
      else if f.key = g.key then 0 else if f.key < g.key then -1 else 1 := by
  cases hf : f.isNaN <;> cases hg : g.isNaN <;>
    simp [caml_float_compare_nanLeast, hosted, Double.eq, Double.lt, hf, hg]

/-- With the `#if 0` lines compiled, `caml_float_compare` would order the doubles as its comment
says: a NaN below every other double and equal to every NaN, and `≤ 0` a total preorder on all
doubles (reflexive, antisymmetric and transitive). Off the NaNs it is the compiled comparison. -/
theorem caml_float_compare_nanLeast_total :
    (∀ f g : Double, f.isNaN = true → g.isNaN = false →
      caml_float_compare_nanLeast hosted f g = -1) ∧
    (∀ f g : Double, f.isNaN = true → g.isNaN = true →
      caml_float_compare_nanLeast hosted f g = 0) ∧
    (∀ f : Double, caml_float_compare_nanLeast hosted f f = 0) ∧
    (∀ f g : Double,
      caml_float_compare_nanLeast hosted f g = -caml_float_compare_nanLeast hosted g f) ∧
    (∀ f g h : Double, caml_float_compare_nanLeast hosted f g ≤ 0 →
      caml_float_compare_nanLeast hosted g h ≤ 0 → caml_float_compare_nanLeast hosted f h ≤ 0) ∧
    (∀ f g : Double, f.isNaN = false → g.isNaN = false →
      caml_float_compare_nanLeast hosted f g = caml_float_compare hosted f g) := by
  simp only [caml_float_compare_nanLeast_hosted, caml_float_compare_hosted]
  refine ⟨fun f g hf hg => by simp [hf, hg], fun f g hf hg => by simp [hf, hg],
    fun f => by cases f.isNaN <;> simp, fun f g => ?_, fun f g h => ?_,
    fun f g hf hg => by simp [hf, hg]⟩
  · cases f.isNaN <;> cases g.isNaN <;> simp only [Bool.false_eq_true, if_true, if_false, neg_neg,
      neg_zero]
    exact compare_keys_swap _ _
  · cases f.isNaN <;> cases g.isNaN <;> cases h.isNaN <;>
      simp only [Bool.false_eq_true, if_true, if_false, compare_keys_nonpos_iff] <;> omega

/-- `caml_float_compare_nanLeast_total` at the NaN and `1.0`. -/
theorem caml_float_compare_nanLeast_total_nan_one :
    Double.nan.isNaN = true ∧ Double.one.isNaN = false ∧
    caml_float_compare_nanLeast hosted Double.nan Double.one = -1 :=
  ⟨by decide, by decide, caml_float_compare_nanLeast_total.1 _ _ (by decide) (by decide)⟩

/-- The six hosted predicates agree with each other and with `caml_float_compare`: `<` is
`-1`, `>` is `1`, and between ordered operands `==` is `0`. -/
theorem hosted_relations_agree (f g : Double) :
    caml_lt_float hosted f g = caml_gt_float hosted g f ∧
    caml_le_float hosted f g = caml_ge_float hosted g f ∧
    caml_neq_float hosted f g = !caml_eq_float hosted f g ∧
    (caml_lt_float hosted f g = true ↔ caml_float_compare hosted f g = -1) ∧
    (caml_gt_float hosted f g = true ↔ caml_float_compare hosted f g = 1) ∧
    (f.isNaN = false → g.isNaN = false →
      (caml_eq_float hosted f g = true ↔ caml_float_compare hosted f g = 0)) := by
  refine ⟨rfl, rfl, rfl, ?_⟩
  rw [caml_float_compare_hosted]
  simp only [caml_lt_float, caml_gt_float, caml_eq_float, hosted]
  by_cases hf : f.isNaN <;> by_cases hg : g.isNaN <;> simp only [hf, hg, Bool.or_true,
    Bool.true_or, Bool.or_false, ite_true, ite_false] <;> simp [Double.lt, hf, hg]
  rcases lt_trichotomy f.key g.key with h | h | h
  · simp [h, h.ne, not_lt_of_lt h]
  · simp [h]
  · simp [h, h.ne', not_lt_of_lt h]

/-- `hosted_relations_agree`'s last part at `1.0` and `2.0`. -/
theorem hosted_relations_agree_one_two :
    Double.one.isNaN = false ∧ Double.two.isNaN = false ∧
    (caml_eq_float hosted Double.one Double.two = true ↔
      caml_float_compare hosted Double.one Double.two = 0) :=
  ⟨by decide, by decide,
    (hosted_relations_agree Double.one Double.two).2.2.2.2.2 (by decide) (by decide)⟩

/-! ## The kernel comparison -/

section Kernel

variable {D : Type} [LinearOrder D]

/-- The kernel `caml_float_compare` is the three-way comparison of the linear order. -/
lemma caml_float_compare_kernel (f g : D) :
    caml_float_compare (kernel D) f g = if f = g then 0 else if f < g then -1 else 1 := by
  rcases lt_trichotomy f g with h | rfl | h
  · simp [caml_float_compare, kernel, h, h.ne, not_lt_of_lt h]
  · simp [caml_float_compare, kernel]
  · simp [caml_float_compare, kernel, h, h.ne', not_lt_of_lt h]

/-- The kernel `caml_lt_float` is `caml_le_float`. -/
lemma caml_lt_float_kernel (f g : D) :
    caml_lt_float (kernel D) f g = caml_le_float (kernel D) f g := rfl

/-- In the kernel build the predicates other than `caml_lt_float` agree with each other and
with `caml_float_compare`; `caml_lt_float` holds exactly when the comparison is not `1`. -/
theorem kernel_relations_agree (f g : D) :
    caml_le_float (kernel D) f g = caml_ge_float (kernel D) g f ∧
    caml_neq_float (kernel D) f g = !caml_eq_float (kernel D) f g ∧
    (caml_gt_float (kernel D) f g = true ↔ caml_float_compare (kernel D) f g = 1) ∧
    (caml_eq_float (kernel D) f g = true ↔ caml_float_compare (kernel D) f g = 0) ∧
    (caml_lt_float (kernel D) f g = true ↔ caml_float_compare (kernel D) f g ≠ 1) := by
  refine ⟨rfl, rfl, ?_⟩
  rw [caml_float_compare_kernel, caml_lt_float_kernel]
  rcases lt_trichotomy f g with h | rfl | h
  · simp [caml_gt_float, caml_eq_float, caml_le_float, kernel, h, h.ne, h.le, not_lt_of_lt h]
  · simp [caml_gt_float, caml_eq_float, caml_le_float, kernel]
  · simp [caml_gt_float, caml_eq_float, caml_le_float, kernel, h, h.ne', h.le, not_lt_of_lt h]

/-- On equal operands the kernel `caml_lt_float` holds, while `caml_gt_float` does not and
`caml_float_compare` is `0`. -/
theorem caml_lt_float_kernel_self (x : D) :
    caml_lt_float (kernel D) x x = true ∧ caml_gt_float (kernel D) x x = false ∧
    caml_float_compare (kernel D) x x = 0 := by
  simp [caml_lt_float, caml_gt_float, caml_float_compare, kernel]

end Kernel

end CamlFloats
