import Mathlib.Data.List.Basic
import Mathlib.Data.Nat.Basic
import Mathlib.Algebra.Order.Group.Nat

/-!
# Blocks

Functions on blocks of a fixed length, applied to texts block by block, and texts filled up to
full blocks.

* `BlockCipher` — a bijection of the blocks, with its inverse.
* `blockwise` — a loop that applies a function to each block; `blockwise_undo` says that it gets to
  the end of a text of full blocks, and that the inverse function undoes it.
* `pad` — a text filled up with one letter, with at least one of them; `pad_eq_iff` says which texts
  are padded alike, and `pad_recoverable_iff` which can be recovered.
-/

namespace BlockMode

variable {α : Type} {n : ℕ}

abbrev Block (α : Type) (n : ℕ) := { b : List α // b.length = n }

/-- What a cipher with a given key does to a block. -/
structure BlockCipher (α : Type) (n : ℕ) where
  encrypt : Block α n → Block α n
  decrypt : Block α n → Block α n
  decrypt_encrypt : ∀ b, decrypt (encrypt b) = b
  encrypt_decrypt : ∀ b, encrypt (decrypt b) = b

/-- The loop over the blocks of a text.  There is no result if the last block is not full. -/
def blockwise (hn : 0 < n) (f : Block α n → Block α n) (xs : List α) : Option (List α) :=
  if xs = [] then some []
  else if hlen : n ≤ xs.length then
    (blockwise hn f (xs.drop n)).map
      ((f ⟨xs.take n, by rw [List.length_take, min_eq_left hlen]⟩).1 ++ ·)
  else none
termination_by xs.length
decreasing_by
  rw [List.length_drop]
  omega

variable (hn : 0 < n) {f g : Block α n → Block α n}

theorem blockwise_nil : blockwise hn f [] = some [] := by
  rw [blockwise, if_pos rfl]

/-- The first block. -/
theorem blockwise_append (b : Block α n) (xs : List α) :
    blockwise hn f (b.1 ++ xs) = (blockwise hn f xs).map ((f b).1 ++ ·) := by
  have hlen : n ≤ (b.1 ++ xs).length := by
    rw [List.length_append, b.2]
    omega
  have hne : b.1 ++ xs ≠ [] := by
    intro h
    rw [h, List.length_nil] at hlen
    omega
  have hdrop : (b.1 ++ xs).drop n = xs := List.drop_left' b.2
  have htake : (b.1 ++ xs).take n = b.1 := List.take_left' b.2
  rw [blockwise, if_neg hne, dif_pos hlen, hdrop]
  simp only [htake]

/-- A text of full blocks. -/
inductive Full (n : ℕ) : List α → Prop
  | nil : Full n []
  | block (b : Block α n) {xs : List α} (h : Full n xs) : Full n (b.1 ++ xs)

theorem full_of_dvd {xs : List α} (h : n ∣ xs.length) : Full n xs := by
  obtain ⟨k, hk⟩ := h
  induction k generalizing xs with
  | zero =>
      rw [List.eq_nil_of_length_eq_zero hk]
      exact .nil
  | succ k ih =>
      have hlen : xs.length = n * k + n := hk
      have htake : (xs.take n).length = n := by
        rw [List.length_take]
        omega
      have hdrop : Full n (xs.drop n) := by
        refine ih ?_
        rw [List.length_drop]
        omega
      rw [← List.take_append_drop n xs]
      exact .block ⟨xs.take n, htake⟩ hdrop

/-- **What is done block by block is undone block by block.** -/
theorem blockwise_undo (hgf : ∀ b, g (f b) = b) {xs : List α} (h : Full n xs) :
    ∃ ys, blockwise hn f xs = some ys ∧ blockwise hn g ys = some xs := by
  induction h with
  | nil => exact ⟨[], blockwise_nil hn, blockwise_nil hn⟩
  | block b h ih =>
      obtain ⟨ys, hdo, hundo⟩ := ih
      refine ⟨(f b).1 ++ ys, ?_, ?_⟩
      · rw [blockwise_append, hdo]
        rfl
      · rw [blockwise_append, hundo, hgf]
        rfl

/-- Different texts come out differently. -/
theorem blockwise_inj (hgf : ∀ b, g (f b) = b) {xs ys : List α} (hxs : Full n xs) (hys : Full n ys)
    (h : blockwise hn f xs = blockwise hn f ys) : xs = ys := by
  obtain ⟨xs', hdo, hundo⟩ := blockwise_undo hn hgf hxs
  obtain ⟨ys', hdo', hundo'⟩ := blockwise_undo hn hgf hys
  rw [hdo, hdo', Option.some.injEq] at h
  rw [h, hundo', Option.some.injEq] at hundo
  exact hundo.symm

/-! ## Padding -/

variable {m : ℕ} {z : α} {xs ys : List α}

/-- The text, filled up with `z` to the next multiple of `m` that is longer. -/
def pad (m : ℕ) (z : α) (xs : List α) : List α := xs ++ List.replicate (m - xs.length % m) z

theorem length_pad (hm : 0 < m) (z : α) (xs : List α) :
    (pad m z xs).length = m * (xs.length / m + 1) := by
  have hdiv := Nat.div_add_mod xs.length m
  have hmod := Nat.mod_lt xs.length hm
  rw [pad, List.length_append, List.length_replicate, Nat.mul_add, Nat.mul_one]
  omega

theorem div_eq_of_pad_eq (hm : 0 < m) (h : pad m z xs = pad m z ys) :
    xs.length / m = ys.length / m := by
  have hlen := congrArg List.length h
  rw [length_pad hm, length_pad hm] at hlen
  have hcount := Nat.eq_of_mul_eq_mul_left hm hlen
  omega

/-- Texts with the same number of full groups have room for the letters one has more. -/
theorem mod_add_lt {a k : ℕ} (hm : 0 < m) (h : a / m = (a + k) / m) : a % m + k < m := by
  have hx := Nat.div_add_mod a m
  have hy := Nat.div_add_mod (a + k) m
  have hmod := Nat.mod_lt (a + k) hm
  rw [← h] at hy
  omega

/-- Letters of the padding may as well be letters of the text. -/
theorem pad_append_replicate {k : ℕ} (h : xs.length % m + k < m) :
    pad m z (xs ++ List.replicate k z) = pad m z xs := by
  have hk : k % m = k := Nat.mod_eq_of_lt (by omega)
  have hmod : (xs ++ List.replicate k z).length % m = xs.length % m + k := by
    rw [List.length_append, List.length_replicate, Nat.add_mod, hk, Nat.mod_eq_of_lt h]
  have hcount : k + (m - (xs.length % m + k)) = m - xs.length % m := by omega
  rw [pad, pad, hmod, List.append_assoc, List.replicate_append_replicate, hcount]

/-- The longer of two texts with the same padding has some of the padding more. -/
theorem eq_append_of_pad_eq (hle : xs.length ≤ ys.length) (h : pad m z xs = pad m z ys) :
    ∃ k, ys = xs ++ List.replicate k z := by
  have hxs : xs <+: pad m z ys := by
    rw [← h]
    exact List.prefix_append _ _
  obtain ⟨more, rfl⟩ := List.prefix_of_prefix_length_le hxs (List.prefix_append _ _) hle
  rw [pad, pad, List.append_assoc] at h
  have hmore := List.append_cancel_left h
  refine ⟨more.length, congrArg (xs ++ ·) (List.eq_replicate_iff.2 ⟨rfl, fun b hb => ?_⟩)⟩
  exact List.eq_of_mem_replicate (hmore ▸ List.mem_append_left _ hb)

/-- **Which texts are padded alike**: those with the same number of full groups of which one is
the other with some letters of the padding. -/
theorem pad_eq_iff (hm : 0 < m) :
    pad m z xs = pad m z ys ↔ xs.length / m = ys.length / m ∧
      ∃ k, ys = xs ++ List.replicate k z ∨ xs = ys ++ List.replicate k z := by
  constructor
  · intro h
    refine ⟨div_eq_of_pad_eq hm h, ?_⟩
    obtain hle | hle := Nat.le_total xs.length ys.length
    · obtain ⟨k, hk⟩ := eq_append_of_pad_eq hle h
      exact ⟨k, .inl hk⟩
    · obtain ⟨k, hk⟩ := eq_append_of_pad_eq hle h.symm
      exact ⟨k, .inr hk⟩
  · rintro ⟨hdiv, k, rfl | rfl⟩
    · rw [List.length_append, List.length_replicate] at hdiv
      exact (pad_append_replicate (mod_add_lt hm hdiv)).symm
    · rw [List.length_append, List.length_replicate] at hdiv
      exact pad_append_replicate (mod_add_lt hm hdiv.symm)

/-- **Which texts can be recovered**: those that leave room for one letter, and do not end in it. -/
theorem pad_recoverable_iff (hm : 1 < m) (z : α) (xs : List α) :
    (∀ ys, pad m z xs = pad m z ys → xs = ys) ↔ xs.length % m + 1 = m ∧ xs.getLast? ≠ some z := by
  have hmod := Nat.mod_lt xs.length (by omega : 0 < m)
  constructor
  · intro h
    have hroom : xs.length % m + 1 = m := by
      by_contra hne
      have heq := h (xs ++ List.replicate 1 z) (pad_append_replicate (by omega)).symm
      exact absurd heq (by simp)
    refine ⟨hroom, fun hlast => ?_⟩
    obtain ⟨init, rfl⟩ := List.getLast?_eq_some_iff.1 hlast
    -- without its last letter the text leaves room for two
    have hlt : init.length % m + 1 < m := by
      have hinit := Nat.mod_lt init.length (by omega : 0 < m)
      by_contra hge
      have hfull : init.length % m + 1 = m := by omega
      rw [List.length_append, List.length_singleton, Nat.add_mod, Nat.mod_eq_of_lt hm, hfull,
        Nat.mod_self] at hroom
      omega
    have heq := h init (pad_append_replicate hlt)
    exact absurd heq (by simp)
  · rintro ⟨hroom, hlast⟩ ys h
    obtain ⟨hdiv, k, rfl | rfl⟩ := (pad_eq_iff (by omega)).1 h
    · rw [List.length_append, List.length_replicate] at hdiv
      have hlt := mod_add_lt (by omega) hdiv
      have hzero : k = 0 := by omega
      rw [hzero, List.replicate_zero, List.append_nil]
    · cases k with
      | zero => exact List.append_nil ys
      | succ k =>
          rw [List.replicate_succ', ← List.append_assoc, List.getLast?_concat] at hlast
          exact absurd rfl hlast

end BlockMode
