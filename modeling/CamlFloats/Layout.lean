import CamlFloats.Double

/-!
# How a double sits in memory

Two places in `floats.c` look at the bytes of a double. `union double_as_two_int32` overlays
a double with two `uint32` words `h` and `l`, declared `{h; l}` under `ARCH_BIG_ENDIAN` or on
the old ARM ABI (`__arm__ && !__ARM_EABI__`) and `{l; h}` otherwise. Under
`ARCH_ALIGN_DOUBLE`, `caml_Store_double_val` and `caml_Double_val` move a double through
`union { value v[2]; __double d; }` into, and out of, the two 32-bit fields of its box.

A `Layout` is one of the byte orders the `#if` tells apart; a union is its bytes by offset.
Whatever the layout, `h` reads bits 32 to 63 of the double and `l` bits 0 to 31 (`h_ofDouble`,
`l_ofDouble`), writing `h` changes exactly those bits (`d_setH`), and a double stored into two
fields reads back unchanged (`caml_Double_val_Store_double_val`).
-/

namespace CamlFloats

/-- The byte orders `double_as_two_int32` tells apart. -/
inductive Layout
  /-- Little-endian integers and doubles; `struct { uint32 l; uint32 h; }`. -/
  | littleEndian
  /-- `ARCH_BIG_ENDIAN`; `struct { uint32 h; uint32 l; }`. -/
  | bigEndian
  /-- `__arm__ && !__ARM_EABI__`: little-endian integers, but the high word of a double
  first; `struct { uint32 h; uint32 l; }`. -/
  | armOldABI
deriving DecidableEq, Repr

namespace Layout

/-- Which byte of a double's word, `0` the least significant, is stored at offset `i`. -/
def doubleByte : Layout → Nat → Nat
  | littleEndian, i => i
  | bigEndian, i => 7 - i
  | armOldABI, i => if i < 4 then i + 4 else i - 4

/-- Which byte of a `uint32`, `0` the least significant, is stored at offset `i` of it. -/
def wordByte : Layout → Nat → Nat
  | bigEndian, i => 3 - i
  | _, i => i

/-- The offset of the union's `h`; `l` is at the other half. -/
def hOffset : Layout → Nat
  | littleEndian => 4
  | _ => 0

/-- `Σ i < n, m i * 2 ^ (8 * pos i)`: the number whose byte `pos i` is stored at offset `i`. -/
def bytesValue (m pos : Nat → Nat) : Nat → Nat
  | 0 => 0
  | n + 1 => bytesValue m pos n + m n * 2 ^ (8 * pos n)

/-- The bytes `x` is stored as, for the byte order `pos`. -/
def bytesOf (x : Nat) (pos : Nat → Nat) (i : Nat) : Nat := x / 2 ^ (8 * pos i) % 256

end Layout

/-- The eight bytes of a `union double_as_two_int32`. -/
structure DoubleAsTwoInt32 where
  bytes : Nat → Nat

namespace DoubleAsTwoInt32

variable (L : Layout)

/-- `u.d = x`. -/
def ofDouble (x : Double) : DoubleAsTwoInt32 := ⟨Layout.bytesOf x.bits.toNat L.doubleByte⟩

/-- The `uint32` stored at offset `o`. -/
def word (u : DoubleAsTwoInt32) (o : Nat) : BitVec 32 :=
  BitVec.ofNat 32 (Layout.bytesValue (fun j => u.bytes (o + j)) L.wordByte 4)

/-- `u.i.h`. -/
def h (u : DoubleAsTwoInt32) : BitVec 32 := u.word L L.hOffset

/-- `u.i.l`. -/
def l (u : DoubleAsTwoInt32) : BitVec 32 := u.word L (4 - L.hOffset)

/-- `u.d`. -/
def d (u : DoubleAsTwoInt32) : Double :=
  ⟨BitVec.ofNat 64 (Layout.bytesValue u.bytes L.doubleByte 8)⟩

/-- Writes the `uint32` `w` at offset `o`. -/
def setWord (u : DoubleAsTwoInt32) (o : Nat) (w : BitVec 32) : DoubleAsTwoInt32 :=
  ⟨fun i =>
    if o ≤ i ∧ i < o + 4 then Layout.bytesOf w.toNat L.wordByte (i - o) else u.bytes i⟩

/-- `u.i.h = w`. -/
def setH (u : DoubleAsTwoInt32) (w : BitVec 32) : DoubleAsTwoInt32 := u.setWord L L.hOffset w

lemma h_ofDouble (x : Double) : ((ofDouble L x).h L).toNat = x.bits.toNat / 2 ^ 32 := by
  have := x.bits.isLt
  cases L <;> simp [ofDouble, h, word, Layout.hOffset, Layout.bytesValue, Layout.bytesOf,
    Layout.doubleByte, Layout.wordByte] <;> omega

lemma l_ofDouble (x : Double) : ((ofDouble L x).l L).toNat = x.bits.toNat % 2 ^ 32 := by
  have := x.bits.isLt
  cases L <;> simp [ofDouble, l, word, Layout.hOffset, Layout.bytesValue, Layout.bytesOf,
    Layout.doubleByte, Layout.wordByte] <;> omega

/-- Reading back the `uint32` just written. -/
lemma word_setWord (u : DoubleAsTwoInt32) (o : Nat) (w : BitVec 32) :
    (u.setWord L o w).word L o = w := by
  have := w.isLt
  apply BitVec.eq_of_toNat_eq
  cases L <;> simp [setWord, word, Layout.bytesValue, Layout.bytesOf, Layout.wordByte] <;> omega

lemma bytesValue_congr {m m' : Nat → Nat} (pos : Nat → Nat) {n : Nat}
    (h : ∀ j < n, m j = m' j) : Layout.bytesValue m pos n = Layout.bytesValue m' pos n := by
  induction n with
  | zero => rfl
  | succ n ih =>
    simp only [Layout.bytesValue, ih fun j hj => h j (by omega), h n (by omega)]

/-- A write leaves the `uint32`s it does not overlap. -/
lemma word_setWord_of_disjoint (u : DoubleAsTwoInt32) {o o' : Nat} (w : BitVec 32)
    (h : o + 4 ≤ o' ∨ o' + 4 ≤ o) : (u.setWord L o w).word L o' = u.word L o' := by
  simp only [word, setWord]
  congr 1
  exact bytesValue_congr _ fun j hj => if_neg (by omega)

lemma h_setH (u : DoubleAsTwoInt32) (w : BitVec 32) : (u.setH L w).h L = w :=
  word_setWord L u _ w

lemma setH_setH (u : DoubleAsTwoInt32) (w₁ w₂ : BitVec 32) :
    (u.setH L w₁).setH L w₂ = u.setH L w₂ := by
  simp only [setH, setWord, mk.injEq]
  funext i
  split_ifs <;> rfl

/-- Over eight bytes, `d` is `h` above `l`. -/
lemma d_toNat (u : DoubleAsTwoInt32) (hu : ∀ i < 8, u.bytes i < 256) :
    (u.d L).bits.toNat = (u.h L).toNat * 2 ^ 32 + (u.l L).toNat := by
  have := hu 0 (by decide); have := hu 1 (by decide); have := hu 2 (by decide)
  have := hu 3 (by decide); have := hu 4 (by decide); have := hu 5 (by decide)
  have := hu 6 (by decide); have := hu 7 (by decide)
  cases L <;> simp [d, h, l, word, Layout.hOffset, Layout.bytesValue, Layout.doubleByte,
    Layout.wordByte] <;> omega

lemma l_setH (u : DoubleAsTwoInt32) (w : BitVec 32) : (u.setH L w).l L = u.l L :=
  word_setWord_of_disjoint L u w (by cases L <;> simp [Layout.hOffset])

lemma bytes_setWord_lt (u : DoubleAsTwoInt32) (o : Nat) (w : BitVec 32)
    (hu : ∀ i < 8, u.bytes i < 256) : ∀ i < 8, (u.setWord L o w).bytes i < 256 := by
  intro i hi
  simp only [setWord]
  split
  · exact Nat.mod_lt _ (by norm_num)
  · exact hu i hi

lemma d_setH (x : Double) (w : BitVec 32) :
    (((ofDouble L x).setH L w).d L).bits.toNat = w.toNat * 2 ^ 32 + x.bits.toNat % 2 ^ 32 := by
  rw [d_toNat L ((ofDouble L x).setH L w)
    (bytes_setWord_lt L _ _ _ fun i _ => Nat.mod_lt _ (by norm_num)), h_setH, l_setH, l_ofDouble]

/-- Writing two words at offsets 0 and 4 makes the double whose high word is the one at `h`'s
offset. -/
lemma d_setWord_setWord (u : DoubleAsTwoInt32) (w₀ w₁ : BitVec 32) :
    (((u.setWord L 0 w₀).setWord L 4 w₁).d L).bits.toNat =
      if L.hOffset = 0 then w₀.toNat * 2 ^ 32 + w₁.toNat
      else w₁.toNat * 2 ^ 32 + w₀.toNat := by
  have hb : ∀ i < 8, ((u.setWord L 0 w₀).setWord L 4 w₁).bytes i < 256 := by
    intro i hi
    simp only [setWord]
    split_ifs <;> first | exact Nat.mod_lt _ (by norm_num) | omega
  have h4 : ((u.setWord L 0 w₀).setWord L 4 w₁).word L 4 = w₁ := word_setWord L _ _ _
  have h0 : ((u.setWord L 0 w₀).setWord L 4 w₁).word L 0 = w₀ := by
    rw [word_setWord_of_disjoint L _ _ (by omega), word_setWord]
  rw [d_toNat L _ hb]
  cases L <;> simp [h, l, Layout.hOffset, h0, h4]

end DoubleAsTwoInt32

/-! ## Two-word boxes (`ARCH_ALIGN_DOUBLE`)

On these 32-bit targets `union { value v[2]; __double d; }` has the bytes of
`double_as_two_int32`, with `v[0]` at offset 0 and `v[1]` at offset 4. -/

section AlignDouble

variable (L : Layout)

/-- `caml_Store_double_val`: `buffer.d = dbl`, then `Field(val, 0) = buffer.v[0]` and
`Field(val, 1) = buffer.v[1]`; the result is the two fields. -/
def caml_Store_double_val (dbl : Double) : BitVec 32 × BitVec 32 :=
  let buffer := DoubleAsTwoInt32.ofDouble L dbl
  (buffer.word L 0, buffer.word L 4)

/-- `caml_Double_val`: `buffer.v[0] = Field(val, 0)` and `buffer.v[1] = Field(val, 1)` over
whatever bytes the buffer held, then `buffer.d`. -/
def caml_Double_val (stale : Nat → Nat) (val : BitVec 32 × BitVec 32) : Double :=
  ((((⟨stale⟩ : DoubleAsTwoInt32).setWord L 0 val.1).setWord L 4 val.2).d L)

/-- A double stored into the two fields of its box reads back unchanged, bit for bit. -/
theorem caml_Double_val_Store_double_val (stale : Nat → Nat) (dbl : Double) :
    caml_Double_val L stale (caml_Store_double_val L dbl) = dbl := by
  have := dbl.bits.isLt
  have hh := DoubleAsTwoInt32.h_ofDouble L dbl
  have hl := DoubleAsTwoInt32.l_ofDouble L dbl
  refine Double.ext (BitVec.eq_of_toNat_eq ?_)
  simp only [caml_Double_val, caml_Store_double_val, DoubleAsTwoInt32.d_setWord_setWord]
  cases L <;> simp [DoubleAsTwoInt32.h, DoubleAsTwoInt32.l, Layout.hOffset] at hh hl ⊢ <;>
    omega

end AlignDouble

end CamlFloats
