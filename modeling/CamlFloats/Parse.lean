import CamlFloats.Runtime

/-!
# `caml_float_of_string` and `caml_float_of_substring`

Both primitives copy their input into a scratch buffer, dropping every `'_'`, write a NUL after
the copy and hand the buffer to the C parser (`strtod`, or `fixpt_strtod` in the kernel build).
They fail with `Failure "float_of_string"` when nothing is left after the copy or when the parser
stops before the end of the copy. The buffer is the 64-byte `parse_buffer` when the input is
shorter than 64 bytes and a `caml_stat_alloc` block of `len + 1` bytes otherwise.
`caml_float_of_substring` copies `l` bytes from offset `idx`, after a range test that mixes
`intnat` and `mlsize_t`, and copies nothing when the test fails.

`copyLoop_spec` is the copy loop's invariant: the bytes written so far are the input read so
far without its underscores. From it:

* `caml_float_of_string_spec`: the result is a function of the input with its underscores
  deleted, and an input holding a NUL is rejected;
* `caml_float_of_substring_spec`: the range test admits exactly the nonempty slices, and
  `caml_float_of_substring` is `caml_float_of_string` on `String.sub`;
* `float_of_string_in_bounds`: neither primitive reads outside its string or writes outside its
  buffer.
-/

namespace CamlFloats

/-- A C parser from text to `__double`: `strtod` in the hosted build, `fixpt_strtod` in the
kernel. It reads a C string and returns the value and the count of characters before `*end`,
which points into the string. -/
structure Strtod (D : Type) where
  parse : List Char → D × Nat
  consumed_le : ∀ s, (parse s).2 ≤ s.length

/-- The parser run on the NUL-terminated copy of `c`: it sees `c` up to its first NUL. -/
def Strtod.run {D : Type} (P : Strtod D) (c : List Char) : D × Nat :=
  P.parse (c.takeWhile (· ≠ NUL))

/-- `s` with every `'_'` deleted. -/
def deleteUnderscores (s : List Char) : List Char := s.filter (· ≠ '_')

@[simp] lemma deleteUnderscores_nil : deleteUnderscores [] = [] := rfl

@[simp] lemma deleteUnderscores_cons (c : Char) (s : List Char) :
    deleteUnderscores (c :: s) =
      if c = '_' then deleteUnderscores s else c :: deleteUnderscores s := by
  by_cases h : c = '_' <;> simp [deleteUnderscores, List.filter_cons, h]

/-- A decimal reader with `strtod`'s interface, for tests: it consumes the leading digits. -/
def decimalStrtod : Strtod Nat where
  parse s := ((s.takeWhile Char.isDigit).foldl (fun n c => 10 * n + (c.toNat - 48)) 0,
    (s.takeWhile Char.isDigit).length)
  consumed_le _ := (List.takeWhile_prefix _).length_le

section Primitives

variable {D : Type} (stale : Nat → Char) (P : Strtod D)

/-- `while (len--) { char c = *src++; if (c != '_') *dst++ = c; }`, reading `vs` from offset
`src` and writing `buf` from offset `dst`; the result is the final `dst` and the buffer. -/
def copyLoop (vs : List Char) : Nat → Int → Nat → Buffer → Run (Nat × Buffer)
  | 0, _, dst, buf => .ok (dst, buf)
  | len + 1, src, dst, buf => do
    let c ← readAt vs src
    if c ≠ '_' then
      let buf ← buf.write dst c
      copyLoop vs len (src + 1) (dst + 1) buf
    else copyLoop vs len (src + 1) dst buf

/-- `len < sizeof(parse_buffer) ? parse_buffer : caml_stat_alloc(len + 1)`, the sum taken in
`mlsize_t`. -/
def parseBuffer (len : Nat) : Buffer :=
  Buffer.alloc stale (if len < 64 then 64 else (len + 1) % 2 ^ 64)

/-- After the copy: `*dst = 0; if (dst == buf) goto error; d = strtod(buf, &end);
if (end != dst) goto error;`, then `d`. `error:` raises `Failure "float_of_string"`. -/
def parseTail (dst : Nat) (buf : Buffer) : Run D := do
  let buf ← buf.write dst NUL
  if dst = 0 then throw (.failure "float_of_string")
  let s ← buf.cString
  if (P.parse s).2 ≠ dst then throw (.failure "float_of_string")
  pure (P.parse s).1

/-- `caml_float_of_string vs`. -/
def caml_float_of_string (vs : MlString) : Run D := do
  let len := vs.bytes.length
  let (dst, buf) ← copyLoop vs.bytes len 0 0 (parseBuffer stale len)
  parseTail P dst buf

/-- `fidx >= 0 && fidx < lenvs && flen > 0 && flen <= lenvs - fidx`. Against `0` an `intnat`
is compared signed; against the `mlsize_t` `lenvs` it is converted to unsigned, and
`lenvs - fidx` is an unsigned difference. -/
def substringRangeOk (lenvs fidx flen : BitVec 64) : Bool :=
  decide (0 ≤ fidx.toInt) && fidx.ult lenvs && decide (0 < flen.toInt) && flen.ule (lenvs - fidx)

/-- `caml_float_of_substring vs idx l`, with `idx` and `l` the `intnat`s `Long_val` gives. -/
def caml_float_of_substring (vs : MlString) (idx l : BitVec 64) : Run D := do
  let lenvs : BitVec 64 := BitVec.ofNat 64 vs.bytes.length
  let len : BitVec 64 := if substringRangeOk lenvs idx l then l else 0#64
  let (dst, buf) ← copyLoop vs.bytes len.toNat idx.toInt 0 (parseBuffer stale len.toNat)
  parseTail P dst buf

end Primitives

/-! ## The copy loop -/

/-- The loop invariant, run to the end: from offset `src`, `len` bytes of `vs` are copied
without their underscores after the prefix `w` already written. -/
lemma copyLoop_spec (vs : List Char) (len src : Nat) (w r : List Char)
    (hsrc : src + len ≤ vs.length)
    (hfit : (deleteUnderscores ((vs.drop src).take len)).length ≤ r.length) :
    copyLoop vs len src w.length ⟨w ++ r⟩ =
      .ok (w.length + (deleteUnderscores ((vs.drop src).take len)).length,
        ⟨w ++ deleteUnderscores ((vs.drop src).take len) ++
          r.drop (deleteUnderscores ((vs.drop src).take len)).length⟩) := by
  induction len generalizing src w r with
  | zero => simp [copyLoop]
  | succ len ih =>
    have hs : src < vs.length := by omega
    have hseg : (vs.drop src).take (len + 1) = vs[src] :: (vs.drop (src + 1)).take len := by
      rw [List.drop_eq_getElem_cons hs, List.take_succ_cons]
    have hcast : (src : Int) + 1 = ((src + 1 : Nat) : Int) := by push_cast; rfl
    rw [hseg] at hfit ⊢
    simp only [copyLoop, readAt_natCast vs src hs, ok_bind, hcast]
    by_cases hc : vs[src] = '_'
    · simp only [deleteUnderscores_cons, hc, if_true, ne_eq, not_true_eq_false, if_false]
        at hfit ⊢
      exact ih (src + 1) w r (by omega) hfit
    · obtain ⟨x, r, rfl⟩ : ∃ x r', r = x :: r' := by
        cases r with
        | nil => simp [hc] at hfit
        | cons x r => exact ⟨x, r, rfl⟩
      simp only [deleteUnderscores_cons, hc, if_false, List.length_cons] at hfit ⊢
      have := ih (src + 1) (w ++ [vs[src]]) r (by omega) (by omega)
      rw [List.length_append, List.length_singleton] at this
      rw [if_pos hc, Buffer.write_append_cons, ok_bind, this, List.drop_succ_cons]
      simp only [List.append_assoc, List.singleton_append, Nat.add_assoc, Nat.add_comm 1]

/-! ## After the copy -/

section Tail

variable {D : Type} (stale : Nat → Char) (P : Strtod D)

/-- What both primitives return once the copy holds `c`: the parser's value when `c` is not
empty and the parser, run on it, stops at its end; `Failure "float_of_string"` otherwise. -/
def parseResult (c : List Char) : Run D :=
  if c ≠ [] ∧ (P.run c).2 = c.length then .ok (P.run c).1
  else .error (.failure "float_of_string")

lemma parseTail_spec (c r : List Char) (hr : r ≠ []) :
    parseTail P c.length ⟨c ++ r⟩ = parseResult P c := by
  obtain ⟨x, r, rfl⟩ := List.exists_cons_of_ne_nil hr
  rw [parseTail, Buffer.write_append_cons, ok_bind, List.append_assoc, List.singleton_append,
    Buffer.cString_append_nul, parseResult]
  by_cases hc : c = [] <;> simp [hc, Strtod.run]

lemma length_deleteUnderscores_le (s : List Char) : (deleteUnderscores s).length ≤ s.length :=
  List.length_filter_le _ _

/-- Copying `len` bytes of `vs` from offset `src` into the scratch buffer and parsing the copy
gives `parseResult` of those bytes without their underscores. -/
lemma copy_parse_eq (vs : MlString) (src len : Nat) (h : src + len ≤ vs.bytes.length) :
    (do let (dst, buf) ← copyLoop vs.bytes len src 0 (parseBuffer stale len); parseTail P dst buf)
      = parseResult P (deleteUnderscores ((vs.bytes.drop src).take len)) := by
  have := vs.length_lt
  have hc := length_deleteUnderscores_le ((vs.bytes.drop src).take len)
  have hcap : (parseBuffer stale len).data.length = if len < 64 then 64 else len + 1 := by
    simp only [parseBuffer, Buffer.length_alloc]
    split <;> omega
  have hloop := copyLoop_spec vs.bytes len src [] (parseBuffer stale len).data h (by
    simp only [List.length_take, List.length_drop] at hc
    split at hcap <;> omega)
  simp only [List.nil_append, List.length_nil, Nat.zero_add] at hloop
  rw [hloop, ok_bind]
  exact parseTail_spec P _ _ (by
    rw [← List.length_pos, List.length_drop]
    simp only [List.length_take, List.length_drop] at hc
    split at hcap <;> omega)

/-- `caml_float_of_string` parses its input with the underscores deleted. -/
lemma caml_float_of_string_eq (vs : MlString) :
    caml_float_of_string stale P vs = parseResult P (deleteUnderscores vs.bytes) := by
  simpa [caml_float_of_string] using copy_parse_eq stale P vs 0 vs.bytes.length (by simp)

example :
    caml_float_of_string (fun _ => NUL) decimalStrtod ⟨"1_000".toList, by decide⟩ = .ok 1000 :=
  rfl

example : caml_float_of_string (fun _ => NUL) decimalStrtod ⟨"12x".toList, by decide⟩ =
    .error (.failure "float_of_string") :=
  rfl

lemma length_takeWhile_lt {p : Char → Bool} {a : Char} {l : List Char} (ha : a ∈ l)
    (hp : p a = false) : (l.takeWhile p).length < l.length := by
  induction l with
  | nil => simp at ha
  | cons x l ih =>
    rw [List.takeWhile_cons]
    split
    · rcases List.mem_cons.mp ha with rfl | ha
      · simp_all
      · simpa using ih ha
    · simp

/-- A NUL in the copy stops the parser before the copy's end. -/
lemma parseResult_of_nul_mem {c : List Char} (h : NUL ∈ c) :
    parseResult P c = .error (.failure "float_of_string") := by
  have hlt := length_takeWhile_lt (p := (· ≠ NUL)) h (by simp)
  have hle := P.consumed_le (c.takeWhile (· ≠ NUL))
  simp only [parseResult, Strtod.run]
  rw [if_neg (by omega)]

/-- `caml_float_of_string s` depends on `s` only through `s` without its underscores: it is the
parser's value when that is nonempty and the parser, run on its NUL-terminated copy, stops at its
end, and `Failure "float_of_string"` otherwise. An input holding a NUL is rejected. -/
theorem caml_float_of_string_spec (s : MlString) :
    caml_float_of_string stale P s = parseResult P (deleteUnderscores s.bytes) ∧
    (∀ s' : MlString, deleteUnderscores s'.bytes = deleteUnderscores s.bytes →
      caml_float_of_string stale P s' = caml_float_of_string stale P s) ∧
    (NUL ∈ s.bytes → caml_float_of_string stale P s = .error (.failure "float_of_string")) := by
  refine ⟨caml_float_of_string_eq stale P s, fun s' h => ?_, fun h => ?_⟩
  · rw [caml_float_of_string_eq, caml_float_of_string_eq, h]
  · rw [caml_float_of_string_eq]
    exact parseResult_of_nul_mem P (List.mem_filter.mpr ⟨h, by decide⟩)

/-- `caml_float_of_string_spec` at `"1000"` against `"1_000"`, and at `"1"` followed by a
NUL. -/
theorem caml_float_of_string_spec_decimal :
    deleteUnderscores "1000".toList = deleteUnderscores "1_000".toList ∧
    caml_float_of_string (fun _ => NUL) decimalStrtod ⟨"1000".toList, by decide⟩ =
      caml_float_of_string (fun _ => NUL) decimalStrtod ⟨"1_000".toList, by decide⟩ ∧
    NUL ∈ ['1', NUL] ∧
    caml_float_of_string (fun _ => NUL) decimalStrtod ⟨['1', NUL], by decide⟩ =
      .error (.failure "float_of_string") :=
  ⟨by decide,
    (caml_float_of_string_spec _ _ ⟨"1_000".toList, by decide⟩).2.1
      ⟨"1000".toList, by decide⟩
      (by decide),
    by decide,
    (caml_float_of_string_spec _ _ ⟨['1', NUL], by decide⟩).2.2 (by decide)⟩

/-! ## The substring -/

/-- The range test, read over the integers: no conversion in it wraps around. -/
lemma substringRangeOk_iff (n : Nat) (hn : n < 2 ^ 62) (idx l : BitVec 64) :
    substringRangeOk (BitVec.ofNat 64 n) idx l = true ↔
      0 ≤ idx.toInt ∧ idx.toInt < n ∧ 0 < l.toInt ∧ idx.toInt + l.toInt ≤ n := by
  have := idx.isLt
  have := l.isLt
  simp only [substringRangeOk, Bool.and_eq_true, decide_eq_true_eq, BitVec.ult, BitVec.ule,
    BitVec.toNat_sub, BitVec.toNat_ofNat, BitVec.toInt_eq_toNat_cond]
  split_ifs <;> omega

/-- `caml_float_of_substring` is `caml_float_of_string` on the slice when the slice is in the
string, and fails otherwise. -/
lemma caml_float_of_substring_eq (vs : MlString) (idx l : BitVec 64) :
    caml_float_of_substring stale P vs idx l =
      if 0 ≤ idx.toInt ∧ 0 ≤ l.toInt ∧ idx.toInt + l.toInt ≤ vs.bytes.length then
        caml_float_of_string stale P (vs.sub idx.toNat l.toNat)
      else .error (.failure "float_of_string") := by
  have hrange := substringRangeOk_iff vs.bytes.length vs.length_lt idx l
  have hidx : idx.toInt = idx.toNat ∨ idx.toInt < 0 := by
    rw [BitVec.toInt_eq_toNat_cond]; split_ifs <;> omega
  have hl : l.toInt = l.toNat ∨ l.toInt < 0 := by
    rw [BitVec.toInt_eq_toNat_cond]; split_ifs <;> omega
  rw [caml_float_of_substring]
  by_cases hok : substringRangeOk (BitVec.ofNat 64 vs.bytes.length) idx l = true
  · obtain ⟨h0, hlt, hpos, hle⟩ := hrange.mp hok
    have hsrc : idx.toInt = (idx.toNat : Int) := by omega
    rw [if_pos hok, if_pos ⟨h0, by omega, hle⟩, hsrc,
      copy_parse_eq stale P vs idx.toNat l.toNat (by omega), caml_float_of_string_eq]
    rfl
  · have hfail : parseTail P 0 (parseBuffer stale 0) = .error (.failure "float_of_string") := by
      simpa [parseResult] using parseTail_spec P [] (parseBuffer stale 0).data
        (by simp [parseBuffer, ← List.length_pos])
    rw [if_neg hok, BitVec.toNat_ofNat, Nat.zero_mod]
    simp only [copyLoop, ok_bind, hfail]
    split_ifs with hc
    · have hl0 : l.toNat = 0 := by
        rcases Nat.eq_zero_or_pos l.toNat with h | h
        · exact h
        · exact absurd (hrange.mpr ⟨hc.1, by omega, by omega, hc.2.2⟩) hok
      rw [caml_float_of_string_eq]
      simp [MlString.sub, hl0, parseResult]
    · rfl

/-- The range test of `caml_float_of_substring` admits exactly the nonempty slices of the
string, with no wrap-around; the primitive is `caml_float_of_string` on `String.sub vs idx l`
when `0 ≤ idx`, `0 ≤ l` and `idx + l ≤ length vs`, and fails with `Failure "float_of_string"`
otherwise. -/
theorem caml_float_of_substring_spec (vs : MlString) (idx l : BitVec 64) :
    (substringRangeOk (BitVec.ofNat 64 vs.bytes.length) idx l = true ↔
      0 ≤ idx.toInt ∧ idx.toInt < vs.bytes.length ∧ 0 < l.toInt ∧
        idx.toInt + l.toInt ≤ vs.bytes.length) ∧
    caml_float_of_substring stale P vs idx l =
      if 0 ≤ idx.toInt ∧ 0 ≤ l.toInt ∧ idx.toInt + l.toInt ≤ vs.bytes.length then
        caml_float_of_string stale P (vs.sub idx.toNat l.toNat)
      else .error (.failure "float_of_string") :=
  ⟨substringRangeOk_iff _ vs.length_lt idx l, caml_float_of_substring_eq stale P vs idx l⟩

/-! ## Memory safety -/

lemma parseResult_ne_outOfBounds (c : List Char) : parseResult P c ≠ .error .outOfBounds := by
  unfold parseResult
  split <;> simp

/-- Neither primitive reads outside its string or writes outside its buffer, the final NUL
included: no run ends in `outOfBounds`. -/
theorem float_of_string_in_bounds :
    (∀ vs : MlString, caml_float_of_string stale P vs ≠ .error .outOfBounds) ∧
    (∀ (vs : MlString) (idx l : BitVec 64),
      caml_float_of_substring stale P vs idx l ≠ .error .outOfBounds) := by
  refine ⟨fun vs => ?_, fun vs idx l => ?_⟩
  · rw [caml_float_of_string_eq]
    exact parseResult_ne_outOfBounds P _
  · rw [caml_float_of_substring_eq]
    split
    · rw [caml_float_of_string_eq]
      exact parseResult_ne_outOfBounds P _
    · simp

end Tail

end CamlFloats
