import Mathlib.Algebra.Group.Int.Defs
import Mathlib.Algebra.Group.Nat.Defs
import Mathlib.Data.Int.Notation

/-!
# Bytes, words and durations

What Go's own types and the smallest of its packages come to.

* `Bytes` — a `string` or a `[]byte`; `ascii` — the bytes of a literal.
* `int64` — the value of a signed word; `int64_of_fits` says when nothing wraps.
* `second` — the unit that durations are given in.
* `hexDigit`, `hexChars`, `hexEncode` — hexadecimal digits; `hexChars_inj` says that they
  determine the byte, `le_of_mem_hexEncode` that none of them is a separator.
-/

namespace Go

/-- A Go `string` or `[]byte`. -/
abbrev Bytes := List UInt8

/-- The bytes of a string literal. -/
def ascii (s : String) : Bytes := s.toUTF8.toList

/-- An `int` or `int64`: 64 bits, in two's complement. -/
def int64 (z : ℤ) : ℤ := z.bmod (2 ^ 64)

theorem int64_of_fits {z : ℤ} (hlo : -2 ^ 63 ≤ z) (hhi : z < 2 ^ 63) : int64 z = z :=
  Int.bmod_eq_of_le (by omega) (by omega)

@[simp]
theorem int64_zero : int64 0 = 0 := by
  decide

/-- Wrapping at every step is wrapping once. -/
@[simp]
theorem int64_int64 (z : ℤ) : int64 (int64 z) = int64 z :=
  Int.bmod_bmod

@[simp]
theorem int64_int64_add (x y : ℤ) : int64 (int64 x + y) = int64 (x + y) :=
  Int.bmod_add_bmod

@[simp]
theorem int64_int64_sub (x y : ℤ) : int64 (int64 x - y) = int64 (x - y) :=
  Int.bmod_sub_bmod

/-- `time.Second`, in nanoseconds. -/
def second : ℤ := 1000000000

/-! ## Hexadecimal digits -/

/-- A digit of `"0123456789abcdef"`. -/
def hexDigit (n : ℕ) : UInt8 := UInt8.ofNat (Nat.digitChar n).toNat

/-- The two digits of a byte. -/
def hexChars (b : UInt8) : List Char :=
  [Nat.digitChar (b.toNat / 16), Nat.digitChar (b.toNat % 16)]

/-- `hex.EncodeToString`. -/
def hexEncode (bs : Bytes) : Bytes :=
  bs.flatMap fun b => [hexDigit (b.toNat / 16), hexDigit (b.toNat % 16)]

theorem hexChars_inj {a b : UInt8} (h : hexChars a = hexChars b) : a = b := by
  have hdigit : ∀ i < 16, ∀ j < 16, Nat.digitChar i = Nat.digitChar j → i = j := by decide
  have ha := a.toNat_lt
  have hb := b.toNat_lt
  obtain ⟨hhi, hlo⟩ := List.cons.inj h
  have hhi' := hdigit _ (by omega) _ (by omega) hhi
  have hlo' := hdigit _ (by omega) _ (by omega) (List.cons.inj hlo).1
  refine UInt8.toNat_inj.1 ?_
  omega

theorem le_hexDigit : ∀ n < 16, 0x30 ≤ hexDigit n := by
  decide

/-- Neither a comma nor a slash nor a control byte is among the digits. -/
theorem le_of_mem_hexEncode {bs : Bytes} {x : UInt8} (h : x ∈ hexEncode bs) : 0x30 ≤ x := by
  unfold hexEncode at h
  obtain ⟨b, -, hx⟩ := List.mem_flatMap.1 h
  have hb := b.toNat_lt
  rcases List.mem_cons.1 hx with rfl | hx
  · exact le_hexDigit _ (by omega)
  · rw [List.mem_singleton.1 hx]
    exact le_hexDigit _ (by omega)

theorem length_hexEncode (bs : Bytes) : (hexEncode bs).length = 2 * bs.length := by
  unfold hexEncode
  induction bs with
  | nil => rfl
  | cons b bs ih =>
      rw [List.flatMap_cons, List.length_append, ih, List.length_cons, List.length_cons,
        List.length_nil, List.length_cons]
      omega

end Go
