import Mathlib

/-!
# Strings, scratch buffers and faults

The text primitives of `floats.c` work on C memory: they read an OCaml string through a
`char *`, write into a stack array (`parse_buffer`, `format_buffer`) or a `caml_stat_alloc`
block, and hand the result to a C library routine that reads a NUL-terminated string.

Each access is checked here. A read outside the string or a write outside the buffer ends the
run in `Fault.outOfBounds`, the undefined behaviour C would have; `caml_failwith` ends it in
`Fault.failure`. A primitive is memory safe on an input when its run does not end in
`outOfBounds`. A fresh buffer holds arbitrary bytes (`stale`), as C leaves them.
-/

namespace CamlFloats

/-- How a run of a primitive ends without a value. -/
inductive Fault where
  /-- `caml_failwith msg`: the OCaml exception `Failure msg`. -/
  | failure (msg : String)
  /-- An access outside the object a pointer points into. -/
  | outOfBounds
deriving DecidableEq, Repr

/-- A run of a primitive. -/
abbrev Run := Except Fault

@[simp] lemma ok_bind {α β : Type} (a : α) (f : α → Run β) :
    (Except.ok a >>= f : Run β) = f a :=
  rfl

@[simp] lemma error_bind {α β : Type} (e : Fault) (f : α → Run β) :
    (Except.error e >>= f : Run β) = .error e :=
  rfl

@[simp] lemma pure_eq_ok {α : Type} (a : α) : (pure a : Run α) = .ok a := rfl

@[simp] lemma throw_eq_error {α : Type} (e : Fault) : (throw e : Run α) = .error e := rfl

@[simp] lemma map_error {α β : Type} (f : α → β) (e : Fault) :
    (f <$> (Except.error e : Run α)) = .error e :=
  rfl

/-- The NUL character that ends a C string. -/
def NUL : Char := Char.ofNat 0

/-- An OCaml string: its bytes. `String.length` returns its length as an OCaml `int`, so it is
below `2 ^ 62` on a 64-bit target. -/
structure MlString where
  bytes : List Char
  length_lt : bytes.length < 2 ^ 62

/-- `String.sub s i n`: the `n` bytes from offset `i`. -/
def MlString.sub (s : MlString) (i n : Nat) : MlString :=
  ⟨(s.bytes.drop i).take n, by
    have := s.length_lt
    simp only [List.length_take, List.length_drop]
    omega⟩

/-- `*src` for a `src` at offset `i` of the string `s`. -/
def readAt (s : List Char) (i : Int) : Run Char :=
  if h : 0 ≤ i ∧ i.toNat < s.length then .ok (s.get ⟨i.toNat, h.2⟩) else .error .outOfBounds

lemma readAt_natCast (s : List Char) (i : Nat) (h : i < s.length) :
    readAt s i = .ok s[i] := by
  simp [readAt, h, Int.ofNat_nonneg]

/-- A `char` buffer, by its contents; its capacity is their length. -/
structure Buffer where
  data : List Char

namespace Buffer

/-- A fresh buffer of `n` bytes, holding whatever `stale` says. -/
def alloc (stale : Nat → Char) (n : Nat) : Buffer := ⟨(List.range n).map stale⟩

/-- `*p = c` for a `p` at offset `j`. -/
def write (b : Buffer) (j : Nat) (c : Char) : Run Buffer :=
  if j < b.data.length then .ok ⟨b.data.set j c⟩ else .error .outOfBounds

/-- The C string at the start of the buffer: the bytes before the first NUL. Reading on past
the end without meeting one is out of bounds. -/
def cString (b : Buffer) : Run (List Char) :=
  if NUL ∈ b.data then .ok (b.data.takeWhile (· ≠ NUL)) else .error .outOfBounds

@[simp] lemma length_alloc (stale : Nat → Char) (n : Nat) : (alloc stale n).data.length = n := by
  simp [alloc]

/-- Writing just past a written prefix `w`. -/
lemma write_append_cons (w r : List Char) (x c : Char) :
    write ⟨w ++ x :: r⟩ w.length c = .ok ⟨(w ++ [c]) ++ r⟩ := by
  simp [write]

lemma takeWhile_append_nul (s r : List Char) :
    (s ++ NUL :: r).takeWhile (· ≠ NUL) = s.takeWhile (· ≠ NUL) := by
  induction s with
  | nil => simp
  | cons x s ih => by_cases hx : x = NUL <;> simp_all [List.takeWhile_cons]

/-- The C string of a buffer that holds `s`, then a NUL. -/
lemma cString_append_nul (s r : List Char) :
    cString ⟨s ++ NUL :: r⟩ = .ok (s.takeWhile (· ≠ NUL)) := by
  have := takeWhile_append_nul s r
  simp_all [cString]

end Buffer

end CamlFloats
