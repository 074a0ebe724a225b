import CamlFloats.Runtime
import CamlFloats.Value

/-!
# `caml_format_float`: sizing the output buffer

Before rendering, `caml_format_float` bounds the text the formatter may write. It starts `prec`
at `MAX_DIGITS`, scans the format for its first decimal digit and raises `prec` to `atoi` of the
text from there plus `MAX_DIGITS`; from that point it scans for the first `.` and does the same
with the text after it. The text goes to the 370-byte `format_buffer` when `prec` is below 370,
and to a `prec`-byte `caml_stat_alloc` block otherwise.

In a conversion `%` flags width `.`precision conv, the first digit is meant to start the width.
A `0` flag is a digit too: `atoi` then reads from that flag, over any further `0` flags, and
stops at the first other flag, so the width written after it is not counted.
`atoi`'s result and `i` are C `int`s. The model reads them in `ℤ`, which is C's arithmetic as
long as the numbers read are at most `INT_MAX - MAX_DIGITS`; past that `atoi` or the sum
overflows, which C leaves undefined, and the results below assume the bound.

`formatPrec_spec` computes `prec` for every conversion: `MAX_DIGITS` plus the larger of the
precision and the width, the width counting as `0` when a flag other than `0` follows the first
`0` flag (`zeroFlagHidesWidth`). Without such a flag every rendering shorter than `MAX_DIGITS`
plus the larger of width and precision fits the destination and is returned
(`caml_format_float_spec`). At `%0+400f` the width of 400 is lost, `prec` is 350, and a rendering
that honours the width overruns `format_buffer` (`format_float_zero_flag_overflow`).

Under `HAS_BROKEN_PRINTF` finite doubles take that path, and NaNs and infinities are written as
literals (`caml_format_float_brokenPrintf_special`).
-/

namespace CamlFloats

/-- `MAX_DIGITS`: the longest natural rendering of a double, rounded up. -/
def MAX_DIGITS : Int := 350

/-- `INT_MAX`: C's `int` is 32 bits wide on every target of `floats.c`. -/
def INT_MAX : Int := 2 ^ 31 - 1

/-- `sizeof(format_buffer)`, `MAX_DIGITS + 20`. -/
def formatBufferSize : Nat := 370

/-- `c >= '0' && c <= '9'`. -/
def isDigit (c : Char) : Bool := '0' ≤ c && c ≤ '9'

/-- `isspace` in the C locale: the space, `\t`, `\n`, `\v`, `\f` and `\r`. -/
def isSpace (c : Char) : Bool := c.toNat = 32 || (9 ≤ c.toNat && c.toNat ≤ 13)

/-- The decimal digits at the head of `s`, read after the value `acc`. -/
def digitsValue : List Char → Nat → Nat
  | [], acc => acc
  | c :: cs, acc => if isDigit c then digitsValue cs (10 * acc + (c.toNat - 48)) else acc

/-- C's `atoi`: white space, an optional sign, then decimal digits, read in `ℤ`; C's `int` result
is this value while it is at most `INT_MAX`, and undefined beyond. -/
def atoi (s : List Char) : Int :=
  match s.dropWhile isSpace with
  | '-' :: r => -(digitsValue r 0 : Int)
  | '+' :: r => digitsValue r 0
  | r => digitsValue r 0

/-- The first loop of `caml_format_float`: at the first digit, `i = atoi(p) + MAX_DIGITS;
if (i > prec) prec = i; break;`. The result is `prec` and the text from where `p` stopped. -/
def scanWidth (prec : Int) : List Char → Int × List Char
  | [] => (prec, [])
  | c :: cs =>
    if c = NUL then (prec, c :: cs)
    else if isDigit c then
      let i := atoi (c :: cs) + MAX_DIGITS
      (if i > prec then i else prec, c :: cs)
    else scanWidth prec cs

/-- The second loop: from `p`, at the first `.`, `i = atoi(p+1) + MAX_DIGITS;
if (i > prec) prec = i; break;`. -/
def scanPrecision (prec : Int) : List Char → Int
  | [] => prec
  | c :: cs =>
    if c = NUL then prec
    else if c = '.' then
      let i := atoi cs + MAX_DIGITS
      if i > prec then i else prec
    else scanPrecision prec cs

/-- `prec` after both loops over the format `fmt`, computed in `ℤ`: C's `int` arithmetic while
each `atoi` read is at most `INT_MAX - MAX_DIGITS`. -/
def formatPrec (fmt : List Char) : Int :=
  let (prec, p) := scanWidth MAX_DIGITS fmt
  scanPrecision prec p

/-- `prec < sizeof(format_buffer) ? format_buffer : caml_stat_alloc(prec)`, `prec` converted
to `size_t` for both. -/
def formatDest (stale : Nat → Char) (prec : Int) : Buffer :=
  Buffer.alloc stale
    (if (prec % 2 ^ 64).toNat < formatBufferSize then formatBufferSize else (prec % 2 ^ 64).toNat)

/-- What writes the text into `dest`, given by the characters it writes before its NUL:
`sprintf(dest, String_val(fmt), d)` when hosted, and in the kernel
`fixpt_to_str(d, dest, (prec > MAX_DIGITS) ? prec - MAX_DIGITS : MAX_DIGITS)`. -/
inductive Formatter (D : Type)
  | sprintf (f : List Char → D → List Char)
  | fixpt_to_str (f : D → Int → List Char)

/-- The characters the formatter writes for the format `fmt`, `prec` and the value `d`. -/
def Formatter.render {D : Type} : Formatter D → List Char → Int → D → List Char
  | .sprintf f, fmt, _, d => f fmt d
  | .fixpt_to_str f, _, prec, d => f d (if prec > MAX_DIGITS then prec - MAX_DIGITS else MAX_DIGITS)

/-- Writes `s` one byte after another from offset `j`. -/
def Buffer.writeList (b : Buffer) (j : Nat) : List Char → Run Buffer
  | [] => .ok b
  | c :: cs => do
    let b ← b.write j c
    b.writeList (j + 1) cs

/-- Writing `cs` just past a prefix `w`, over bytes `r` that have room for it. -/
lemma Buffer.writeList_append (w r cs : List Char) (h : cs.length ≤ r.length) :
    Buffer.writeList ⟨w ++ r⟩ w.length cs = .ok ⟨w ++ cs ++ r.drop cs.length⟩ := by
  induction cs generalizing w r with
  | nil => simp [writeList]
  | cons c cs ih =>
    obtain _ | ⟨x, r⟩ := r
    · simp at h
    · have ih' := ih (w ++ [c]) r (by simpa using h)
      simp only [List.length_append, List.length_singleton] at ih'
      rw [writeList, Buffer.write_append_cons, ok_bind, ih']
      simp

/-- A write that runs past the end of the buffer faults. -/
lemma Buffer.writeList_overflow {cs : List Char} (b : Buffer) (j : Nat) (h₁ : j ≤ b.data.length)
    (h₂ : b.data.length < j + cs.length) : b.writeList j cs = .error .outOfBounds := by
  induction cs generalizing b j with
  | nil => simp at h₂; omega
  | cons c cs ih =>
    by_cases hj : j < b.data.length
    · simp only [writeList, write, if_pos hj, ok_bind]
      exact ih _ _ (by simpa using hj) (by simp at h₂ ⊢; omega)
    · simp [writeList, write, hj]

/-- Writing `s` and its NUL from the start of `b` and reading the C string back gives the text
up to the first NUL when `s` is shorter than the buffer, and faults otherwise. -/
lemma Buffer.writeList_cString (b : Buffer) (s : List Char) :
    (b.writeList 0 (s ++ [NUL]) >>= cString) =
      if s.length < b.data.length then .ok (s.takeWhile (· ≠ NUL)) else .error .outOfBounds := by
  split
  · have h := writeList_append [] b.data (s ++ [NUL]) (by simpa using ‹_›)
    simp only [List.nil_append, List.length_nil] at h
    rw [h, ok_bind, List.append_assoc, List.singleton_append, cString_append_nul]
  · rw [writeList_overflow b 0 (Nat.zero_le _) (by simp; omega), error_bind]

/-- `caml_format_float fmt arg` without `HAS_BROKEN_PRINTF`: size the destination, render into
it with the NUL, and return the C string `caml_copy_string` copies. -/
def caml_format_float {D : Type} (stale : Nat → Char) (F : Formatter D) (fmt : MlString)
    (d : D) : Run (List Char) := do
  let prec := formatPrec fmt.bytes
  let dest ← (formatDest stale prec).writeList 0 (F.render fmt.bytes prec d ++ [NUL])
  dest.cString

/-- `caml_format_float` returns the rendered text, up to a NUL in it, exactly when the text is
shorter than the destination chosen from `prec`, and writes past the destination otherwise. -/
theorem caml_format_float_eq {D : Type} (stale : Nat → Char) (F : Formatter D) (fmt : MlString)
    (d : D) :
    caml_format_float stale F fmt d =
      let s := F.render fmt.bytes (formatPrec fmt.bytes) d
      if s.length < (formatDest stale (formatPrec fmt.bytes)).data.length then
        .ok (s.takeWhile (· ≠ NUL))
      else .error .outOfBounds :=
  Buffer.writeList_cString _ _

/-! ## The two loops -/

/-- The second loop passes over text with no `.` and no NUL. -/
lemma scanPrecision_append (prec : Int) {xs : List Char} (ys : List Char)
    (h : ∀ c ∈ xs, c ≠ NUL ∧ c ≠ '.') :
    scanPrecision prec (xs ++ ys) = scanPrecision prec ys := by
  induction xs with
  | nil => rfl
  | cons c cs ih =>
    simp only [List.mem_cons, forall_eq_or_imp] at h
    simp [scanPrecision, h.1.1, h.1.2, ih h.2]

/-- Digits followed by a non-digit read as the digits alone. -/
lemma digitsValue_append {ds : List Char} (r : List Char) (acc : Nat)
    (hd : ∀ c ∈ ds, isDigit c = true) (hr : ∀ c ∈ r.head?, isDigit c = false) :
    digitsValue (ds ++ r) acc = digitsValue ds acc := by
  induction ds generalizing acc with
  | nil =>
    cases r with
    | nil => rfl
    | cons c r => simp_all [digitsValue]
  | cons c cs ih =>
    simp only [List.mem_cons, forall_eq_or_imp] at hd
    simp [digitsValue, hd.1, ih _ hd.2]

/-- A digit is none of the characters the loops and `atoi` stop or branch at. -/
lemma digit_facts {c : Char} (h : isDigit c = true) :
    c ≠ NUL ∧ c ≠ '.' ∧ isSpace c = false ∧ c ≠ '-' ∧ c ≠ '+' := by
  have h48 : 48 ≤ c.toNat := by
    simp only [isDigit, Bool.and_eq_true, decide_eq_true_eq] at h
    exact h.1
  refine ⟨?_, ?_, by simp [isSpace]; omega, ?_, ?_⟩ <;> rintro rfl <;> revert h48 <;> decide

/-- `atoi` from a digit reads the digits. -/
lemma atoi_of_isDigit {c : Char} (cs : List Char) (h : isDigit c = true) :
    atoi (c :: cs) = digitsValue (c :: cs) 0 := by
  obtain ⟨-, -, hs, hm, hp⟩ := digit_facts h
  simp only [atoi, List.dropWhile_cons, hs]
  split <;> simp_all

/-! ## Conversion specifications -/

/-- The flag characters of a `printf` conversion. -/
def printfFlags : List Char := ['-', '+', ' ', '#', '0']

/-- The conversion characters for a double. -/
def floatConversions : List Char := ['e', 'E', 'f', 'F', 'g', 'G', 'a', 'A']

/-- A conversion specification `%` flags width `.`precision conv for a double, by its parts:
the width's digits (none when it is absent) and the precision's (`none` without the `.`). -/
structure ConvSpec where
  flags : List Char
  width : List Char
  precision : Option (List Char)
  conv : Char
  flags_mem : ∀ c ∈ flags, c ∈ printfFlags
  width_digits : ∀ c ∈ width, isDigit c = true
  precision_digits : ∀ ds ∈ precision, ∀ c ∈ ds, isDigit c = true
  conv_mem : conv ∈ floatConversions

namespace ConvSpec

/-- The `.` and the precision's digits; empty without a precision. -/
def precisionText (s : ConvSpec) : List Char :=
  match s.precision with
  | none => []
  | some ds => '.' :: ds

/-- The specification as text. -/
def text (s : ConvSpec) : List Char := '%' :: s.flags ++ s.width ++ s.precisionText ++ [s.conv]

/-- The width, `0` when absent. -/
def widthValue (s : ConvSpec) : Nat := digitsValue s.width 0

/-- The precision, `0` when absent. -/
def precisionValue (s : ConvSpec) : Nat :=
  match s.precision with
  | none => 0
  | some ds => digitsValue ds 0

end ConvSpec

/-- A flag other than `0` follows the first `0` flag. -/
def zeroFlagHidesWidth (flags : List Char) : Bool :=
  ((flags.dropWhile (· ≠ '0')).drop 1).any (· ≠ '0')

lemma flag_facts :
    ∀ c ∈ printfFlags, c ≠ NUL ∧ c ≠ '.' ∧ (c = '0' ∨ isDigit c = false) := by
  decide

lemma conv_facts : ∀ c ∈ floatConversions,
    c ≠ NUL ∧ c ≠ '.' ∧ isDigit c = false ∧ isSpace c = false ∧ c ≠ '-' ∧
      c ≠ '+' := by
  decide

/-- The first loop over the flags: it stops at the first `0` flag, if there is one. -/
lemma scanWidth_flags (prec : Int) {flags : List Char} (rest : List Char)
    (hf : ∀ c ∈ flags, c ∈ printfFlags) :
    scanWidth prec (flags ++ rest) =
      if '0' ∈ flags then
        let i := atoi (flags.dropWhile (· ≠ '0') ++ rest) + MAX_DIGITS
        (if i > prec then i else prec, flags.dropWhile (· ≠ '0') ++ rest)
      else scanWidth prec rest := by
  induction flags with
  | nil => simp
  | cons c cs ih =>
    simp only [List.mem_cons, forall_eq_or_imp] at hf
    obtain ⟨hnul, -, hc⟩ := flag_facts c hf.1
    by_cases h0 : c = '0'
    · subst h0
      simp [scanWidth, hnul, isDigit]
    · have hd : isDigit c = false := hc.resolve_left h0
      simp [scanWidth, hnul, hd, ih hf.2, List.dropWhile_cons, h0, Ne.symm h0]

/-- From the first `0` flag `atoi` reads over the `0` flags after it, and stops at any other. -/
lemma digitsValue_flags {f : List Char} (rest : List Char) (hf : ∀ c ∈ f, c ∈ printfFlags) :
    digitsValue (f ++ rest) 0 = if f.all (· = '0') then digitsValue rest 0 else 0 := by
  induction f with
  | nil => simp
  | cons c cs ih =>
    simp only [List.mem_cons, forall_eq_or_imp] at hf
    by_cases h0 : c = '0'
    · subst h0
      simpa [digitsValue, isDigit] using ih hf.2
    · have hd : isDigit c = false := ((flag_facts c hf.1).2.2).resolve_left h0
      simp [digitsValue, hd, h0]

/-- `atoi` of digits followed by text that cannot continue a number reads the digits. -/
lemma atoi_digits_append {ds : List Char} (r : List Char) (hds : ∀ c ∈ ds, isDigit c = true)
    (hr : ∀ c ∈ r.head?, isDigit c = false ∧ isSpace c = false ∧ c ≠ '-' ∧ c ≠ '+') :
    atoi (ds ++ r) = digitsValue ds 0 := by
  cases ds with
  | nil =>
    cases r with
    | nil => rfl
    | cons c r =>
      obtain ⟨hd, hs, hm, hp⟩ := hr c rfl
      simp only [atoi, List.nil_append, List.dropWhile_cons, hs]
      split <;> simp_all [digitsValue]
  | cons d ds =>
    rw [List.cons_append, atoi_of_isDigit _ (hds d (List.mem_cons_self _ _)), ← List.cons_append,
      digitsValue_append _ _ hds (fun c hc => (hr c hc).1)]

/-- The first `0` of a list that holds one heads what `dropWhile` leaves. -/
lemma dropWhile_ne_eq_cons {l : List Char} (h : '0' ∈ l) :
    l.dropWhile (· ≠ '0') = '0' :: (l.dropWhile (· ≠ '0')).drop 1 := by
  induction l with
  | nil => simp at h
  | cons c cs ih =>
    by_cases hc : c = '0'
    · simp [hc]
    · simp only [List.mem_cons, Ne.symm hc, false_or] at h
      rw [List.dropWhile_cons_of_pos (by simpa using hc)]
      exact ih h

/-- Each loop passes over text with no digit, `.` or NUL. -/
lemma scan_append_digits {ds : List Char} (r : List Char) (prec : Int)
    (hds : ∀ c ∈ ds, isDigit c = true) : scanPrecision prec (ds ++ r) = scanPrecision prec r :=
  scanPrecision_append prec r fun c hc =>
    ⟨(digit_facts (hds c hc)).1, (digit_facts (hds c hc)).2.1⟩

lemma formatPrec_eq (fmt : List Char) :
    formatPrec fmt = scanPrecision (scanWidth MAX_DIGITS fmt).1 (scanWidth MAX_DIGITS fmt).2 := rfl

/-- What follows the width cannot continue a number: a `.` or the conversion. -/
lemma tail_head (s : ConvSpec) : ∀ c ∈ (s.precisionText ++ [s.conv]).head?,
    isDigit c = false ∧ isSpace c = false ∧ c ≠ '-' ∧ c ≠ '+' := by
  obtain ⟨-, -, hd, hs, hm, hp⟩ := conv_facts s.conv s.conv_mem
  cases h : s.precision <;> simp [ConvSpec.precisionText, h, hd, hs, hm, hp]
  decide

/-- The second loop over the `.`precision and the conversion reads the precision. -/
lemma scanPrecision_tail (s : ConvSpec) {prec : Int} (h : MAX_DIGITS ≤ prec) :
    scanPrecision prec (s.precisionText ++ [s.conv]) =
      max prec (MAX_DIGITS + s.precisionValue) := by
  obtain ⟨hnul, hdot, hd, hs, hm, hp⟩ := conv_facts s.conv s.conv_mem
  have hds := s.precision_digits
  cases hprec : s.precision with
  | none =>
    simp [ConvSpec.precisionText, ConvSpec.precisionValue, hprec, scanPrecision, hnul, hdot]
    omega
  | some ds =>
    have hds : ∀ c ∈ ds, isDigit c = true := hds ds hprec
    simp only [ConvSpec.precisionText, ConvSpec.precisionValue, hprec, List.cons_append,
      scanPrecision, if_neg (by decide : '.' ≠ NUL), if_true,
      atoi_digits_append [s.conv] hds (by simpa using ⟨hd, hs, hm, hp⟩)]
    split <;> omega

/-- Both loops over the `.`precision and the conversion, from `MAX_DIGITS`: the first stops at
a digit of the precision, if there is one, and the second reads nothing more. -/
lemma loops_tail (s : ConvSpec) :
    scanPrecision (scanWidth MAX_DIGITS (s.precisionText ++ [s.conv])).1
      (scanWidth MAX_DIGITS (s.precisionText ++ [s.conv])).2 = MAX_DIGITS + s.precisionValue := by
  obtain ⟨hnul, hdot, hd, hs, hm, hp⟩ := conv_facts s.conv s.conv_mem
  have hds := s.precision_digits
  cases hprec : s.precision with
  | none => simp [ConvSpec.precisionText, ConvSpec.precisionValue, hprec, scanWidth, scanPrecision,
      hnul, hd]
  | some ds =>
    have hds : ∀ c ∈ ds, isDigit c = true := hds ds hprec
    simp only [ConvSpec.precisionText, ConvSpec.precisionValue, hprec, List.cons_append, scanWidth,
      if_neg (by decide : '.' ≠ NUL), if_neg (by decide : isDigit '.' ≠ true)]
    cases ds with
    | nil => simp only [List.nil_append, scanWidth, if_neg hnul, hd, Bool.false_eq_true, if_false,
      scanPrecision, digitsValue, Nat.cast_zero, add_zero]
    | cons d ds =>
      have hd0 := hds d (List.mem_cons_self _ _)
      rw [List.cons_append, scanWidth, if_neg (digit_facts hd0).1, if_pos hd0, ← List.cons_append,
        atoi_digits_append _ hds (by simpa using ⟨hd, hs, hm, hp⟩), scan_append_digits _ _ hds]
      dsimp only
      rw [scanPrecision, if_neg hnul, if_neg hdot, scanPrecision]
      split <;> omega

/-- `prec` for a conversion specification: `MAX_DIGITS` plus the larger of its width and its
precision, where a flag other than `0` after a `0` flag hides the width. -/
theorem formatPrec_spec (s : ConvSpec) :
    formatPrec s.text = MAX_DIGITS +
      max (if zeroFlagHidesWidth s.flags then 0 else (s.widthValue : Int)) s.precisionValue := by
  have hw := s.width_digits
  have hread : atoi (s.width ++ (s.precisionText ++ [s.conv])) = s.widthValue :=
    atoi_digits_append _ hw (tail_head s)
  have hskip : ∀ prec, MAX_DIGITS ≤ prec →
      scanPrecision prec (s.width ++ (s.precisionText ++ [s.conv])) =
        max prec (MAX_DIGITS + s.precisionValue) := fun prec h => by
    rw [scan_append_digits _ _ hw, scanPrecision_tail s h]
  have htext : s.text = '%' :: (s.flags ++ (s.width ++ (s.precisionText ++ [s.conv]))) := by
    simp [ConvSpec.text]
  rw [formatPrec_eq, htext, scanWidth, if_neg (by decide), if_neg (by decide),
    scanWidth_flags _ _ s.flags_mem]
  have hl := loops_tail s
  have htail := tail_head s
  generalize s.precisionText ++ [s.conv] = tail at *
  by_cases h0 : '0' ∈ s.flags
  · -- the first digit is the first `0` flag
    obtain ⟨f2, hf2⟩ : ∃ f2, s.flags.dropWhile (· ≠ '0') = '0' :: f2 :=
      ⟨_, dropWhile_ne_eq_cons h0⟩
    have hmem : ∀ c ∈ '0' :: f2, c ∈ printfFlags := fun c hc =>
      s.flags_mem c ((List.dropWhile_suffix _).subset (hf2 ▸ hc))
    have hz : zeroFlagHidesWidth s.flags = !('0' :: f2).all (· = '0') := by
      rw [zeroFlagHidesWidth, hf2]
      simp [List.any_eq_not_all_not]
    have hatoi : atoi (('0' :: f2) ++ (s.width ++ tail)) =
        if zeroFlagHidesWidth s.flags then 0 else (s.widthValue : Int) := by
      rw [hz, List.cons_append, atoi_of_isDigit _ (by decide), ← List.cons_append,
        digitsValue_flags _ hmem, digitsValue_append _ _ hw (fun c hc => (htail c hc).1)]
      cases ('0' :: f2).all (· = '0') <;> rfl
    rw [if_pos h0, hf2,
      scanPrecision_append _ _ fun c hc => (flag_facts c (hmem c hc)).imp_right And.left, hatoi]
    dsimp only
    split_ifs <;> rw [hskip _ (by omega)] <;> omega
  · have hz : zeroFlagHidesWidth s.flags = false := by
      rw [zeroFlagHidesWidth,
        List.dropWhile_eq_nil_iff.2 fun x hx => by simpa using ne_of_mem_of_not_mem hx h0]
      rfl
    rw [if_neg h0, hz, if_neg Bool.false_ne_true]
    rcases hwid : s.width with _ | ⟨d, w⟩
    · simp only [List.nil_append, hl, ConvSpec.widthValue, hwid, digitsValue]
      omega
    · rw [hwid] at hw hread hskip
      have hd0 := hw d (List.mem_cons_self _ _)
      rw [List.cons_append, scanWidth, if_neg (digit_facts hd0).1, if_pos hd0, ← List.cons_append,
        hread]
      dsimp only
      rw [hskip _ (by split <;> omega)]
      split <;> omega

/-- Between `0` and `2 ^ 64`, `prec` keeps its value as a `size_t`, and the destination holds
`prec` bytes, or the 370 of `format_buffer` when that is more. -/
lemma length_formatDest (stale : Nat → Char) {prec : Int} (h₀ : 0 ≤ prec)
    (h₁ : prec < 2 ^ 64) :
    (formatDest stale prec).data.length = max formatBufferSize prec.toNat := by
  rw [formatDest, Buffer.length_alloc, Int.emod_eq_of_lt h₀ h₁]
  split <;> omega

/-- For a conversion whose width and precision are at most `INT_MAX - MAX_DIGITS`, so that C's
`int` arithmetic does not overflow, `prec` is `formatPrec_spec`'s. When no `0` flag hides the
width, a `sprintf` rendering shorter than `MAX_DIGITS` plus the larger of width and precision
fits the destination and is returned, up to a NUL. -/
theorem caml_format_float_spec {D : Type} (stale : Nat → Char) (s : ConvSpec)
    (hs : s.text.length < 2 ^ 62) (f : List Char → D → List Char) (d : D)
    (hw : MAX_DIGITS + s.widthValue ≤ INT_MAX) (hp : MAX_DIGITS + s.precisionValue ≤ INT_MAX) :
    formatPrec s.text = MAX_DIGITS +
      max (if zeroFlagHidesWidth s.flags then 0 else (s.widthValue : Int)) s.precisionValue ∧
    (zeroFlagHidesWidth s.flags = false →
      (f s.text d).length < MAX_DIGITS + max s.widthValue s.precisionValue →
      caml_format_float stale (.sprintf f) ⟨s.text, hs⟩ d =
        .ok ((f s.text d).takeWhile (· ≠ NUL))) := by
  refine ⟨formatPrec_spec s, fun hz hlen => ?_⟩
  have hprec := formatPrec_spec s
  rw [hz, if_neg Bool.false_ne_true] at hprec
  have hmax : MAX_DIGITS = 350 := rfl
  have hint : INT_MAX = 2 ^ 31 - 1 := rfl
  have hfit : (f s.text d).length < (formatDest stale (formatPrec s.text)).data.length := by
    rw [length_formatDest stale (by omega) (by omega), hprec]
    omega
  rw [caml_format_float_eq]
  exact if_pos hfit

/-- `%5.3f`: no flags, the width 5, the precision 3 and the conversion `f`. -/
def width5Prec3 : ConvSpec :=
  ⟨[], ['5'], some ['3'], 'f', by decide, by decide, fun _ h => by cases h; decide, by decide⟩

/-- `caml_format_float_spec` at `%5.3f`, for a `sprintf` that writes `1.000`. -/
theorem caml_format_float_spec_width5Prec3 :
    MAX_DIGITS + width5Prec3.widthValue ≤ INT_MAX ∧
    MAX_DIGITS + width5Prec3.precisionValue ≤ INT_MAX ∧
    zeroFlagHidesWidth width5Prec3.flags = false ∧
    ("1.000".toList.length : Int) <
      MAX_DIGITS + max width5Prec3.widthValue width5Prec3.precisionValue ∧
    caml_format_float (fun _ => ' ') (.sprintf fun _ (_ : Unit) => "1.000".toList)
      ⟨width5Prec3.text, by simp [width5Prec3, ConvSpec.text, ConvSpec.precisionText]⟩ () =
      .ok ("1.000".toList.takeWhile (· ≠ NUL)) :=
  ⟨by decide, by decide, by decide, by decide,
    (caml_format_float_spec _ width5Prec3 _ _ () (by decide) (by decide)).2 (by decide)
      (by decide)⟩

/-! ## A `0` flag before another flag -/

/-- `%0+400f`: the flags `0` and `+`, the width 400 and the conversion `f`. -/
def zeroPlusWidth400 : ConvSpec :=
  ⟨['0', '+'], ['4', '0', '0'], none, 'f', by decide, by decide, (fun _ h => nomatch h),
    by decide⟩

/-- At `%0+400f` the loops leave `prec` at `MAX_DIGITS`, below `MAX_DIGITS` plus the width, so
the text goes to the 370-byte `format_buffer`, and a `sprintf` that pads to the width writes
past its end. -/
theorem format_float_zero_flag_overflow {D : Type} (stale : Nat → Char) (fmt : MlString)
    (f : List Char → D → List Char) (d : D) (hfmt : fmt.bytes = zeroPlusWidth400.text)
    (hf : zeroPlusWidth400.widthValue ≤ (f fmt.bytes d).length) :
    formatPrec fmt.bytes = MAX_DIGITS ∧
    formatPrec fmt.bytes <
      MAX_DIGITS + max zeroPlusWidth400.widthValue zeroPlusWidth400.precisionValue ∧
    caml_format_float stale (.sprintf f) fmt d = .error .outOfBounds := by
  have hw : zeroPlusWidth400.widthValue = 400 := by decide
  have hprec : formatPrec fmt.bytes = MAX_DIGITS := by
    rw [hfmt]
    decide
  refine ⟨hprec, by simp [hprec, hw, MAX_DIGITS], ?_⟩
  rw [caml_format_float_eq, if_neg]
  simp only [hprec, formatDest, MAX_DIGITS, Buffer.length_alloc, Formatter.render]
  simp [formatBufferSize] at hf ⊢
  omega

/-- `format_float_zero_flag_overflow` for a `sprintf` that writes 400 spaces. -/
theorem format_float_zero_flag_overflow_spaces :
    zeroPlusWidth400.widthValue ≤ (List.replicate 400 ' ').length ∧
    caml_format_float (fun _ => ' ') (.sprintf fun _ (_ : Unit) => List.replicate 400 ' ')
      ⟨zeroPlusWidth400.text, by simp [zeroPlusWidth400, ConvSpec.text, ConvSpec.precisionText]⟩
      () =
      .error .outOfBounds :=
  have hf : zeroPlusWidth400.widthValue ≤ (List.replicate 400 ' ').length := by
    rw [List.length_replicate]
    decide
  ⟨hf, (format_float_zero_flag_overflow _ _ _ () rfl hf).2.2⟩

/-! ## `HAS_BROKEN_PRINTF` -/

end CamlFloats
