import Mathlib.Data.List.Basic
import Mathlib.Tactic.SplitIfs

/-!
# UTF-8 as Go's `unicode/utf8` reads it

A Go string is a byte string, and code that wants text reads it rune by rune: at each
position either a well-formed encoding of one to four bytes stands there, or the byte is
invalid and is skipped alone, as U+FFFD.

* `width s` — the length of the encoding at the front of `s`, 0 if the first byte is
  invalid there; `IsRune u` — `u` is one well-formed encoding.
* `rune_induction` — what holds of the empty string and survives an invalid byte or a
  rune in front holds of every byte string.
* `coerce` — every invalid byte replaced by U+FFFD; `coerce_eq_self_iff` says that this
  changes nothing exactly on valid UTF-8, and `valid_coerce` that the result is valid.
-/

namespace GoUtf8

/-! ## One rune -/

/-- A continuation byte. -/
def cont (b : UInt8) : Bool := 0x80 ≤ b && b ≤ 0xBF

/-- The number of bytes announced by a first byte; 0 for a byte that starts nothing. -/
def size (b : UInt8) : ℕ :=
  if b < 0x80 then 1
  else if b < 0xC2 then 0
  else if b ≤ 0xDF then 2
  else if b ≤ 0xEF then 3
  else if b ≤ 0xF4 then 4
  else 0

/-- The second bytes accepted after a first byte: no overlong forms, no surrogates, nothing
above U+10FFFF. -/
def second (b0 b1 : UInt8) : Bool :=
  if b0 = 0xE0 then 0xA0 ≤ b1 && b1 ≤ 0xBF
  else if b0 = 0xED then 0x80 ≤ b1 && b1 ≤ 0x9F
  else if b0 = 0xF0 then 0x90 ≤ b1 && b1 ≤ 0xBF
  else if b0 = 0xF4 then 0x80 ≤ b1 && b1 ≤ 0x8F
  else cont b1

/-- The width `utf8.DecodeRune` finds at the front, and 0 where it finds an invalid byte. -/
def width : List UInt8 → ℕ
  | [] => 0
  | b0 :: bs =>
      match size b0, bs with
      | 1, _ => 1
      | 2, b1 :: _ => if second b0 b1 then 2 else 0
      | 3, b1 :: b2 :: _ => if second b0 b1 && cont b2 then 3 else 0
      | 4, b1 :: b2 :: b3 :: _ => if second b0 b1 && cont b2 && cont b3 then 4 else 0
      | _, _ => 0

/-- One well-formed encoding: whatever follows, exactly these bytes are read. -/
def IsRune (u : List UInt8) : Prop := u ≠ [] ∧ ∀ t, width (u ++ t) = u.length

/-- The bytes read at the front of a string are a rune. -/
theorem exists_rune {s : List UInt8} (h : width s ≠ 0) : ∃ u t, s = u ++ t ∧ IsRune u := by
  unfold width at h
  split at h
  · exact absurd rfl h
  · rename_i b0 bs
    split at h
    · rename_i hsize
      refine ⟨[b0], _, rfl, List.cons_ne_nil _ _, fun t => ?_⟩
      simp [width, hsize]
    · rename_i b1 t hsize
      have hb : second b0 b1 = true := by by_contra hb; simp [hb] at h
      refine ⟨[b0, b1], t, rfl, List.cons_ne_nil _ _, fun t => ?_⟩
      simp [width, hsize, hb]
    · rename_i b1 b2 t hsize
      have hb : (second b0 b1 && cont b2) = true := by by_contra hb; simp [hb] at h
      refine ⟨[b0, b1, b2], t, rfl, List.cons_ne_nil _ _, fun t => ?_⟩
      simp [width, hsize, hb]
    · rename_i b1 b2 b3 t hsize
      have hb : (second b0 b1 && cont b2 && cont b3) = true := by by_contra hb; simp [hb] at h
      refine ⟨[b0, b1, b2, b3], t, rfl, List.cons_ne_nil _ _, fun t => ?_⟩
      simp [width, hsize, hb]
    · exact absurd rfl h

/-- **Induction along the runes** of a byte string. -/
theorem rune_induction {P : List UInt8 → Prop} (nil : P [])
    (invalid : ∀ b bs, width (b :: bs) = 0 → P bs → P (b :: bs))
    (rune : ∀ u t, IsRune u → P t → P (u ++ t)) (s : List UInt8) : P s := by
  induction hn : s.length using Nat.strongRecOn generalizing s with
  | ind n ih =>
      cases s with
      | nil => exact nil
      | cons b bs =>
          by_cases hw : width (b :: bs) = 0
          · refine invalid b bs hw (ih bs.length ?_ bs rfl)
            rw [← hn]
            exact Nat.lt_succ_self _
          · obtain ⟨u, t, hsplit, hu⟩ := exists_rune hw
            rw [hsplit]
            refine rune u t hu (ih t.length ?_ t rfl)
            rw [← hn, hsplit, List.length_append]
            have := List.length_pos_iff.2 hu.1
            omega

/-! ## Replacing invalid bytes -/

/-- U+FFFD. -/
def replacement : List UInt8 := [0xEF, 0xBF, 0xBD]

/-- The rest of a string, of whose current rune `k` bytes are still to be copied. -/
def coerceFrom : ℕ → List UInt8 → List UInt8
  | _, [] => []
  | k + 1, b :: bs => b :: coerceFrom k bs
  | 0, b :: bs =>
      match width (b :: bs) with
      | 0 => replacement ++ coerceFrom 0 bs
      | w + 1 => b :: coerceFrom w bs

/-- The string with every invalid byte replaced by U+FFFD. -/
def coerce (s : List UInt8) : List UInt8 := coerceFrom 0 s

/-- The rest of a string is valid, of whose current rune `k` bytes are still to come. -/
def validFrom : ℕ → List UInt8 → Bool
  | _, [] => true
  | k + 1, _ :: bs => validFrom k bs
  | 0, b :: bs =>
      match width (b :: bs) with
      | 0 => false
      | w + 1 => validFrom w bs

/-- `utf8.Valid`. -/
def valid (s : List UInt8) : Bool := validFrom 0 s

theorem coerceFrom_append (u t : List UInt8) : coerceFrom u.length (u ++ t) = u ++ coerce t := by
  induction u with
  | nil => rfl
  | cons b u ih =>
      show b :: coerceFrom u.length (u ++ t) = _
      rw [ih]
      rfl

theorem validFrom_append (u t : List UInt8) : validFrom u.length (u ++ t) = valid t := by
  induction u with
  | nil => rfl
  | cons b u ih => exact ih

theorem coerce_invalid {b : UInt8} {bs : List UInt8} (h : width (b :: bs) = 0) :
    coerce (b :: bs) = replacement ++ coerce bs := by
  show (match width (b :: bs) with
    | 0 => replacement ++ coerceFrom 0 bs
    | w + 1 => b :: coerceFrom w bs) = _
  rw [h]
  rfl

theorem coerce_rune {u : List UInt8} (hu : IsRune u) (t : List UInt8) :
    coerce (u ++ t) = u ++ coerce t := by
  obtain ⟨hne, hw⟩ := hu
  cases u with
  | nil => exact absurd rfl hne
  | cons b u =>
      show (match width (b :: u ++ t) with
        | 0 => replacement ++ coerceFrom 0 (u ++ t)
        | w + 1 => b :: coerceFrom w (u ++ t)) = _
      rw [hw t]
      show b :: coerceFrom u.length (u ++ t) = _
      rw [coerceFrom_append]
      rfl

theorem valid_invalid {b : UInt8} {bs : List UInt8} (h : width (b :: bs) = 0) :
    valid (b :: bs) = false := by
  show (match width (b :: bs) with
    | 0 => false
    | w + 1 => validFrom w bs) = _
  rw [h]

theorem valid_rune {u : List UInt8} (hu : IsRune u) (t : List UInt8) : valid (u ++ t) = valid t := by
  obtain ⟨hne, hw⟩ := hu
  cases u with
  | nil => exact absurd rfl hne
  | cons b u =>
      show (match width (b :: u ++ t) with
        | 0 => false
        | w + 1 => validFrom w (u ++ t)) = _
      rw [hw t]
      exact validFrom_append u t

theorem isRune_replacement : IsRune replacement := by
  refine ⟨List.cons_ne_nil _ _, fun t => ?_⟩
  show width (0xEF :: 0xBF :: 0xBD :: t) = 3
  simp [width, show size 0xEF = 3 by decide, show second 0xEF 0xBF = true by decide,
    show cont 0xBD = true by decide]

/-- The result of `coerce` is valid. -/
theorem valid_coerce (s : List UInt8) : valid (coerce s) = true := by
  induction s using rune_induction with
  | nil => rfl
  | invalid b bs hw ih => rw [coerce_invalid hw, valid_rune isRune_replacement, ih]
  | rune u t hu ih => rw [coerce_rune hu, valid_rune hu, ih]

theorem length_le_length_coerce (s : List UInt8) : s.length ≤ (coerce s).length := by
  induction s using rune_induction with
  | nil => exact Nat.le_refl 0
  | invalid b bs hw ih =>
      rw [coerce_invalid hw, List.length_append, List.length_cons]
      show bs.length + 1 ≤ 3 + _
      omega
  | rune u t hu ih =>
      rw [coerce_rune hu, List.length_append, List.length_append]
      omega

/-- **`coerce` changes nothing exactly on valid UTF-8**: one invalid byte makes the
string longer. -/
theorem coerce_eq_self_iff (s : List UInt8) : coerce s = s ↔ valid s = true := by
  induction s using rune_induction with
  | nil => exact ⟨fun _ => rfl, fun _ => rfl⟩
  | invalid b bs hw ih =>
      rw [coerce_invalid hw, valid_invalid hw]
      refine ⟨fun h => ?_, fun h => absurd h Bool.false_ne_true⟩
      have hlen := congrArg List.length h
      have hle := length_le_length_coerce bs
      rw [List.length_append, List.length_cons] at hlen
      change 3 + (coerce bs).length = bs.length + 1 at hlen
      omega
  | rune u t hu ih => rw [coerce_rune hu, valid_rune hu, List.append_cancel_left_eq, ih]

end GoUtf8
