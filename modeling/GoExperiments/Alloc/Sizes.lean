import Mathlib.Algebra.Group.Int.Defs
import Mathlib.Algebra.Group.Nat.Defs
import Mathlib.Data.Int.Notation
import Mathlib.Data.Nat.Size
import Mathlib.Tactic.ByContra
import Mathlib.Tactic.SplitIfs
import GoExperiments.Lib.GoBasic

/-!
# Sizes and size classes

The arithmetic of the allocator (`memory.go`, and `BitLen` of `mathutil`): all of it on 64-bit
words, where every operation may wrap.

A request of `size` bytes belongs to the class `sizeLog size`, the slots of which have `2 ^ log`
bytes.  `sizeLog_eq` and `le_two_pow_sizeLog` say which class that is, for the sizes on which
nothing wraps; above `2 ^ 62` bytes, `sizeLog_of_huge`, the class is 63 and its slot size negative.
-/

namespace Alloc

open Go

/-! ## Words -/

/-- The bits of an `int`. -/
def uint64 (z : ℤ) : ℕ := (z % 2 ^ 64).toNat

/-- `a &^ b`. -/
def andNot (a b : ℕ) : ℕ := a ^^^ (a &&& b)

/-- `z << n`. -/
def shl (z : ℤ) (n : ℕ) : ℤ := int64 (z * 2 ^ n)

theorem uint64_natCast {n : ℕ} (h : n < 2 ^ 64) : uint64 n = n := by
  unfold uint64
  rw [Int.emod_eq_of_lt (by omega) (by omega), Int.toNat_natCast]

/-- Clearing the low bits. -/
theorem andNot_mask (a k : ℕ) : andNot a (2 ^ k - 1) = a - a % 2 ^ k := by
  have hhigh : a - a % 2 ^ k = a / 2 ^ k * 2 ^ k := by
    have := Nat.div_add_mod' a (2 ^ k)
    omega
  rw [andNot, Nat.and_two_pow_sub_one_eq_mod, hhigh]
  refine Nat.eq_of_testBit_eq fun i => ?_
  rw [Nat.testBit_xor, Nat.testBit_mod_two_pow, Nat.testBit_mul_two_pow, Nat.testBit_div_two_pow]
  by_cases hi : k ≤ i
  · rw [Nat.sub_add_cancel hi]
    simp [hi, Nat.not_lt.2 hi]
  · simp [hi, Nat.not_le.1 hi]

/-! ## The constants -/

def mallocAllign : ℤ := 16

/-- `roundup(n, m)`; `m` must be a power of 2. -/
def roundup (n m : ℤ) : ℤ := int64 (andNot (uint64 (n + m - 1)) (uint64 (m - 1)))

def pageSize : ℤ := shl 1 20

def pageMask : ℤ := pageSize - 1

/-- A `page` has four words. -/
def headerSize : ℤ := roundup 32 mallocAllign

def pageAvail : ℤ := pageSize - headerSize

def maxSlotSize : ℤ := pageAvail / 2

@[simp] theorem pageSize_eq : pageSize = 1048576 := by decide

@[simp] theorem headerSize_eq : headerSize = 32 := by decide

@[simp] theorem maxSlotSize_eq : maxSlotSize = 524272 := by decide

@[simp] theorem pageAvail_eq : pageAvail = 1048544 := by decide

/-- Where no sum wraps, the next multiple. -/
theorem roundup_eq {n k : ℕ} (h : n + 2 ^ k < 2 ^ 63) :
    roundup n (2 ^ k) = ((n + (2 ^ k - 1)) / 2 ^ k * 2 ^ k : ℕ) := by
  have hpos : 0 < 2 ^ k := Nat.two_pow_pos k
  have hcast : (2 : ℤ) ^ k = ((2 ^ k : ℕ) : ℤ) := (Int.natCast_pow 2 k).symm
  have hmask : uint64 ((2 : ℤ) ^ k - 1) = 2 ^ k - 1 := by
    rw [hcast, show ((2 ^ k : ℕ) : ℤ) - 1 = ((2 ^ k - 1 : ℕ) : ℤ) by omega]
    exact uint64_natCast (by omega)
  have hsum : uint64 ((n : ℤ) + 2 ^ k - 1) = n + (2 ^ k - 1) := by
    rw [hcast, show (n : ℤ) + ((2 ^ k : ℕ) : ℤ) - 1 = ((n + (2 ^ k - 1) : ℕ) : ℤ) by omega]
    exact uint64_natCast (by omega)
  have hdiv := Nat.div_add_mod' (n + (2 ^ k - 1)) (2 ^ k)
  rw [roundup, hmask, hsum, andNot_mask, Nat.sub_eq_of_eq_add hdiv.symm]
  exact int64_of_fits (by omega) (by omega)

/-! ## The length of a number in bits -/

/-- `log2` of `tables.go`: the place of the highest bit of a byte. -/
def log2 : List ℤ := [
  -1, 0, 1, 1, 2, 2, 2, 2, 3, 3, 3, 3, 3, 3, 3, 3, -- 0

  4, 4, 4, 4, 4, 4, 4, 4, 4, 4, 4, 4, 4, 4, 4, 4, -- 1

  5, 5, 5, 5, 5, 5, 5, 5, 5, 5, 5, 5, 5, 5, 5, 5, -- 2
  5, 5, 5, 5, 5, 5, 5, 5, 5, 5, 5, 5, 5, 5, 5, 5, -- 3

  6, 6, 6, 6, 6, 6, 6, 6, 6, 6, 6, 6, 6, 6, 6, 6, -- 4
  6, 6, 6, 6, 6, 6, 6, 6, 6, 6, 6, 6, 6, 6, 6, 6, -- 5
  6, 6, 6, 6, 6, 6, 6, 6, 6, 6, 6, 6, 6, 6, 6, 6, -- 6
  6, 6, 6, 6, 6, 6, 6, 6, 6, 6, 6, 6, 6, 6, 6, 6, -- 7

  7, 7, 7, 7, 7, 7, 7, 7, 7, 7, 7, 7, 7, 7, 7, 7, -- 8
  7, 7, 7, 7, 7, 7, 7, 7, 7, 7, 7, 7, 7, 7, 7, 7, -- 9
  7, 7, 7, 7, 7, 7, 7, 7, 7, 7, 7, 7, 7, 7, 7, 7, -- 10
  7, 7, 7, 7, 7, 7, 7, 7, 7, 7, 7, 7, 7, 7, 7, 7, -- 11
  7, 7, 7, 7, 7, 7, 7, 7, 7, 7, 7, 7, 7, 7, 7, 7, -- 12
  7, 7, 7, 7, 7, 7, 7, 7, 7, 7, 7, 7, 7, 7, 7, 7, -- 13
  7, 7, 7, 7, 7, 7, 7, 7, 7, 7, 7, 7, 7, 7, 7, 7, -- 14
  7, 7, 7, 7, 7, 7, 7, 7, 7, 7, 7, 7, 7, 7, 7, 7] -- 15

/-- `BitLenUint64`; no index is ever above 255. -/
def bitLenUint64 (n : ℕ) : ℤ :=
  if n >>> 56 ≠ 0 then log2.getD (n >>> 56) 0 + 56 + 1
  else if n >>> 48 ≠ 0 then log2.getD (n >>> 48) 0 + 48 + 1
  else if n >>> 40 ≠ 0 then log2.getD (n >>> 40) 0 + 40 + 1
  else if n >>> 32 ≠ 0 then log2.getD (n >>> 32) 0 + 32 + 1
  else if n >>> 24 ≠ 0 then log2.getD (n >>> 24) 0 + 24 + 1
  else if n >>> 16 ≠ 0 then log2.getD (n >>> 16) 0 + 16 + 1
  else if n >>> 8 ≠ 0 then log2.getD (n >>> 8) 0 + 8 + 1
  else log2.getD n 0 + 1

/-- `BitLen`, for an `int` of 64 bits. -/
def bitLen (n : ℤ) : ℤ := bitLenUint64 (uint64 n)

theorem log2_getD : ∀ b < 256, log2.getD b 0 + 1 = Nat.size b := by decide +kernel

/-- A number is as long as its high part and the low part together. -/
theorem size_eq_size_shiftRight {n k : ℕ} (h : n >>> k ≠ 0) :
    n.size = (n >>> k).size + k := by
  have hhigh : ∀ m, (n >>> k) < 2 ^ m ↔ n < 2 ^ (m + k) := by
    intro m
    rw [Nat.shiftRight_eq_div_pow, Nat.div_lt_iff_lt_mul (Nat.two_pow_pos k), Nat.pow_add]
  have hle : k ≤ n.size := by
    have hpow : 2 ^ k ≤ n := by
      by_contra hlt
      exact h (by rw [Nat.shiftRight_eq_div_pow, Nat.div_eq_of_lt (Nat.not_le.1 hlt)])
    exact Nat.le_of_lt (Nat.lt_size.2 hpow)
  refine Nat.le_antisymm (Nat.size_le.2 ((hhigh _).1 (Nat.size_le.1 (Nat.le_refl _)))) ?_
  have hlow : (n >>> k).size ≤ n.size - k := by
    refine Nat.size_le.2 ((hhigh _).2 ?_)
    rw [Nat.sub_add_cancel hle]
    exact Nat.size_le.1 (Nat.le_refl _)
  omega

/-- **The table look-ups compute the length.** -/
theorem bitLenUint64_eq {n : ℕ} (h : n < 2 ^ 64) : bitLenUint64 n = n.size := by
  have hbyte : ∀ k, n < 2 ^ (k + 8) → n >>> k ≠ 0 →
      log2.getD (n >>> k) 0 + k + 1 = (n.size : ℤ) := by
    intro k hk hne
    have hlt : n >>> k < 256 := by
      rw [Nat.shiftRight_eq_div_pow, Nat.div_lt_iff_lt_mul (Nat.two_pow_pos k)]
      rwa [Nat.pow_add, Nat.mul_comm] at hk
    rw [size_eq_size_shiftRight hne, Int.natCast_add, ← log2_getD _ hlt]
    omega
  have hzero : ∀ k, ¬ n >>> k ≠ 0 → n < 2 ^ k := by
    intro k hk
    rw [not_not, Nat.shiftRight_eq_div_pow, Nat.div_eq_zero_iff] at hk
    exact hk.resolve_left (Nat.ne_of_gt (Nat.two_pow_pos k))
  unfold bitLenUint64
  split_ifs with h56 h48 h40 h32 h24 h16 h8
  · exact hbyte 56 h h56
  · exact hbyte 48 (hzero _ h56) h48
  · exact hbyte 40 (hzero _ h48) h40
  · exact hbyte 32 (hzero _ h40) h32
  · exact hbyte 24 (hzero _ h32) h24
  · exact hbyte 16 (hzero _ h24) h16
  · exact hbyte 8 (hzero _ h16) h8
  · exact log2_getD n (hzero _ h8)

/-! ## Size classes -/

/-- `uint(mathutil.BitLen(roundup(size, mallocAllign) - 1))`. -/
def sizeLog (size : ℤ) : ℕ := uint64 (bitLen (int64 (roundup size mallocAllign - 1)))

/-- The class of a size on which nothing wraps. -/
theorem sizeLog_eq {size : ℕ} (hpos : 0 < size) (h : size ≤ 2 ^ 62) :
    sizeLog size = Nat.size ((size + 15) / 16 * 16 - 1) := by
  have hround : roundup size mallocAllign = ((size + 15) / 16 * 16 : ℕ) :=
    roundup_eq (k := 4) (by omega)
  have hle : (size + 15) / 16 * 16 ≤ 2 ^ 62 := by omega
  have hcast : (((size + 15) / 16 * 16 : ℕ) : ℤ) - 1 = ((size + 15) / 16 * 16 - 1 : ℕ) := by omega
  have hsize : ((size + 15) / 16 * 16 - 1).size ≤ 62 := Nat.size_le.2 (by omega)
  rw [sizeLog, hround, hcast, int64_of_fits (by omega) (by omega), bitLen,
    uint64_natCast (by omega), bitLenUint64_eq (by omega), uint64_natCast (by omega)]

/-- A slot of the class holds the request. -/
theorem le_two_pow_sizeLog {size : ℕ} (hpos : 0 < size) (h : size ≤ 2 ^ 62) :
    size ≤ 2 ^ sizeLog size := by
  have hlt : (size + 15) / 16 * 16 - 1 < 2 ^ sizeLog size := by
    rw [sizeLog_eq hpos h]
    exact Nat.size_le.1 (Nat.le_refl _)
  omega

theorem four_le_sizeLog {size : ℕ} (hpos : 0 < size) (h : size ≤ 2 ^ 62) : 4 ≤ sizeLog size := by
  rw [sizeLog_eq hpos h]
  exact Nat.lt_size.2 (by omega)

theorem sizeLog_le {size : ℕ} (hpos : 0 < size) (h : size ≤ 2 ^ 62) : sizeLog size ≤ 62 := by
  rw [sizeLog_eq hpos h]
  exact Nat.size_le.2 (by omega)

/-- Above `2 ^ 62` bytes the class is 63, whether or not the sum in `roundup` wraps. -/
theorem sizeLog_of_huge {size : ℤ} (hlo : 2 ^ 62 < size) (hhi : size < 2 ^ 63) :
    sizeLog size = 63 := by
  have hlast : int64 (roundup size mallocAllign - 1) =
      (((size.toNat + 15) / 16 * 16 - 1 : ℕ) : ℤ) := by
    have hmask : uint64 (mallocAllign - 1) = 2 ^ 4 - 1 := by decide
    have hsum : uint64 (size + mallocAllign - 1) = size.toNat + 15 := by
      rw [show size + mallocAllign - 1 = ((size.toNat + 15 : ℕ) : ℤ) by
        unfold mallocAllign; omega]
      exact uint64_natCast (by omega)
    have hdiv := Nat.div_add_mod' (size.toNat + 15) (2 ^ 4)
    rw [roundup, hmask, hsum, andNot_mask, Nat.sub_eq_of_eq_add hdiv.symm, int64, int64,
      Int.bmod_sub_bmod, ← int64, int64_of_fits (by omega) (by omega)]
    omega
  have hsize : ((size.toNat + 15) / 16 * 16 - 1).size = 63 :=
    Nat.le_antisymm (Nat.size_le.2 (by omega)) (Nat.lt_size.2 (by omega))
  rw [sizeLog, hlast, bitLen, uint64_natCast (by omega), bitLenUint64_eq (by omega), hsize]
  rfl

/-- The slot size of a class, where it does not wrap. -/
theorem shl_one {log : ℕ} (h : log ≤ 62) : shl 1 log = (2 ^ log : ℕ) := by
  have hpow : 2 ^ log ≤ 2 ^ 62 := Nat.pow_le_pow_right (by decide) h
  have hcast : (2 : ℤ) ^ log = ((2 ^ log : ℕ) : ℤ) := (Int.natCast_pow 2 log).symm
  rw [shl, Int.one_mul, hcast]
  generalize 2 ^ log = n at hpow
  exact int64_of_fits (by omega) (by omega)

/-- The classes whose slots share pages are the ones up to 18. -/
theorem shl_one_le_maxSlotSize {log : ℕ} (h : log ≤ 62) :
    shl 1 log ≤ maxSlotSize ↔ log ≤ 18 := by
  rw [shl_one h, maxSlotSize_eq]
  constructor
  · intro hle
    by_contra hlog
    have hpow : 2 ^ 19 ≤ 2 ^ log := Nat.pow_le_pow_right (by decide) (by omega)
    omega
  · intro hlog
    have hpow : 2 ^ log ≤ 2 ^ 18 := Nat.pow_le_pow_right (by decide) hlog
    omega

end Alloc
