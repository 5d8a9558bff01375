import GoExperiments.Alloc.Machine

/-!
# Mapped ranges

`mmap` of `mmap_unix.go` needs a range that begins at a multiple of `pageSize`, which the operating
system does not promise.  It maps `pageSize` bytes more than it needs and unmaps what is in front
of the first such multiple and what is behind the range.

* `Legal` — what the operating system may answer.
* `mmap_spec` — the range is mapped, zero, aligned, and the rest of the memory is as it was; or
  there is an error, and what was mapped before is as it was.
-/

namespace Alloc

open ByteMemory Go

/-- What the operating system may answer when it is asked for `n` bytes: an error, or a range of
its own pages in the part of the address space that is a process's, where nothing is mapped. -/
def Legal (os : Os) (m : Mem) (n : ℤ) (ans : MmapAnswer) : Prop :=
  ∀ p, ans.base = some p →
    0 < n ∧ 0 < p ∧ 2 ^ os.pageBits ∣ p ∧ p + n ≤ 2 ^ 47 ∧ ∀ x, p ≤ x → x < p + n.toNat → m x = none

/-- The operating system fails one of the calls. -/
def MmapAnswer.Refused (ans : MmapAnswer) : Prop :=
  ans.base = none ∨ ans.head = false ∨ ans.tail = false

/-- The size of a mapping for `size` bytes. -/
def Os.roundup (os : Os) (size : ℕ) : ℕ :=
  (size + (2 ^ os.pageBits - 1)) / 2 ^ os.pageBits * 2 ^ os.pageBits

variable {os : Os} {m : Mem} {size : ℕ} {ans : MmapAnswer}

theorem Os.two_pow_le (os : Os) : 2 ^ os.pageBits ≤ 2 ^ 20 :=
  Nat.pow_le_pow_right (by decide) os.pageBits_le

theorem Os.le_roundup (os : Os) (size : ℕ) : size ≤ os.roundup size := by
  have hpos := Nat.two_pow_pos os.pageBits
  have hdiv := Nat.div_add_mod' (size + (2 ^ os.pageBits - 1)) (2 ^ os.pageBits)
  have hmod := Nat.mod_lt (size + (2 ^ os.pageBits - 1)) hpos
  unfold Os.roundup
  omega

/-- A multiple of the page size that is at least `size` is at least the mapping. -/
theorem Os.roundup_le {os : Os} {size k : ℕ} (h : size ≤ k) (hk : 2 ^ os.pageBits ∣ k) :
    os.roundup size ≤ k := by
  obtain ⟨j, rfl⟩ := hk
  have hpos := Nat.two_pow_pos os.pageBits
  have hlt : (size + (2 ^ os.pageBits - 1)) / 2 ^ os.pageBits < j + 1 := by
    rw [Nat.div_lt_iff_lt_mul hpos, Nat.add_mul, Nat.one_mul, Nat.mul_comm j]
    omega
  unfold Os.roundup
  rw [Nat.mul_comm]
  exact Nat.mul_le_mul_left _ (Nat.le_of_lt_succ hlt)

theorem Os.roundup_lt (os : Os) (size : ℕ) : os.roundup size < size + 2 ^ 20 := by
  have hpow := os.two_pow_le
  have hpos := Nat.two_pow_pos os.pageBits
  have hdiv := Nat.div_add_mod' (size + (2 ^ os.pageBits - 1)) (2 ^ os.pageBits)
  unfold Os.roundup
  omega

theorem roundup_pageSize (hsize : size < 2 ^ 62 + 2 ^ 21) :
    Alloc.roundup size os.pageSize = os.roundup size := by
  have hpow := os.two_pow_le
  exact roundup_eq (by omega)

theorem and_osPageMask (os : Os) (p : ℕ) : p &&& uint64 os.pageMask = p % 2 ^ os.pageBits := by
  have hpow := os.two_pow_le
  have hpos := Nat.two_pow_pos os.pageBits
  have hcast : (2 : ℤ) ^ os.pageBits = ((2 ^ os.pageBits : ℕ) : ℤ) := (Int.natCast_pow 2 _).symm
  have hmask : uint64 os.pageMask = 2 ^ os.pageBits - 1 := by
    rw [Os.pageMask, Os.pageSize, hcast,
      show ((2 ^ os.pageBits : ℕ) : ℤ) - 1 = ((2 ^ os.pageBits - 1 : ℕ) : ℤ) by omega]
    exact uint64_natCast (by omega)
  rw [hmask, Nat.and_two_pow_sub_one_eq_mod]

theorem and_pageMask (p : ℕ) : p &&& uint64 pageMask = p % 2 ^ 20 := by
  have hmask : uint64 pageMask = 2 ^ 20 - 1 := by decide
  rw [hmask, Nat.and_two_pow_sub_one_eq_mod]

/-- The outcome of a call of `mmap` for `n` bytes. -/
inductive Mmapped (m : Mem) (n : ℕ) (ans : MmapAnswer) : ℕ × ℤ × Err × Mem → Prop
  /-- An error.  Where a `munmap` fails, what was mapped in this call may still be. -/
  | failed (e : Errno) (m' : Mem) (hrefused : ans.Refused)
      (hold : ∀ x, (m x).isSome = true → m' x = m x)
      (hclean : ans.head = true → ans.tail = true → m' = m) : Mmapped m n ans (0, 0, some e, m')
  | mapped (p : ℕ) (m' : Mem) (hpos : 0 < p) (haligned : 2 ^ 20 ∣ p) (hhigh : p + n ≤ 2 ^ 47)
      (hnew : ∀ x, p ≤ x → x < p + n → m x = none ∧ m' x = some 0)
      (hold : ∀ x, ¬ (p ≤ x ∧ x < p + n) → m' x = m x) : Mmapped m n ans (p, n, none, m')

/-- What is behind the range is unmapped. -/
theorem mmapTail_eq {m : Mem} {p n k : ℕ} (haligned : 2 ^ 20 ∣ p) (hhigh : p + n ≤ 2 ^ 47)
    (hk : 0 < k) (ok : Bool) :
    mmapTail m p ((n + k : ℕ) : ℤ) n ok =
      .ok (if ok then (p, (n : ℤ), none, fill m (p + n) k none)
        else (0, 0, some .munmap, m)) := by
  have hmask : p &&& uint64 pageMask = 0 := by
    rw [and_pageMask, Nat.mod_eq_zero_of_dvd haligned]
  have hrest : ((n + k : ℕ) : ℤ) - n = k := by omega
  have haddr : uint64 ((p : ℤ) + n) = p + n := uint64_natCast (n := p + n) (by omega)
  unfold mmapTail unmap
  rw [hrest, haddr, if_neg (not_not.2 hmask), if_pos (by omega), Int.toNat_natCast]
  cases ok <;> rfl

/-- The memory after the range of `n + k` bytes from `p` was mapped and all but the `n` bytes from
`q` was unmapped again. -/
theorem mapped_of_trimmed {m : Mem} {p q n k : ℕ} (ans : MmapAnswer) (hpq : p ≤ q) (hqk : q ≤ p + k)
    (hpos : 0 < p) (haligned : 2 ^ 20 ∣ q) (hhigh : p + (n + k) ≤ 2 ^ 47)
    (hfresh : ∀ x, p ≤ x → x < p + (n + k) → m x = none) :
    Mmapped m n ans (q, n, none,
      fill (fill (fill m p (n + k) (some 0)) p (q - p) none) (q + n) (p + k - q) none) := by
  refine .mapped q _ (by omega) haligned (by omega) (fun x hx hxn => ?_) (fun x hx => ?_)
  · refine ⟨hfresh x (by omega) (by omega), ?_⟩
    rw [fill_of_not_mem (by omega), fill_of_not_mem (by omega), fill_of_mem (by omega)]
  · by_cases hrange : p ≤ x ∧ x < p + (n + k)
    · rw [hfresh x hrange.1 hrange.2]
      by_cases htail : q + n ≤ x
      · rw [fill_of_mem (by omega)]
      · rw [fill_of_not_mem (by omega), fill_of_mem (by omega)]
    · rw [fill_of_not_mem (by omega), fill_of_not_mem (by omega), fill_of_not_mem hrange]

/-- **What `mmap` does.** -/
theorem mmap_spec (hsize : size < 2 ^ 62 + 2 ^ 21)
    (hlegal : Legal os m (os.roundup size + 2 ^ 20) ans) :
    ∃ r, mmap os m size ans = .ok r ∧ Mmapped m (os.roundup size) ans r := by
  unfold mmap
  rw [roundup_pageSize hsize]
  cases hbase : ans.base with
  | none => exact ⟨_, rfl, .failed _ _ (.inl hbase) (fun _ _ => rfl) fun _ _ => rfl⟩
  | some p =>
      have hround := os.roundup_lt size
      generalize os.roundup size = n at *
      obtain ⟨-, hpos, hdvd, hhigh, hfresh⟩ := hlegal p hbase
      have hfresh : ∀ x, p ≤ x → x < p + (n + 2 ^ 20) → m x = none :=
        fun x hx hxn => hfresh x hx (by omega)
      have hkept : ∀ x, (m x).isSome = true → ∀ v, fill m p (n + 2 ^ 20) v x = m x := by
        intro x hx v
        refine fill_of_not_mem fun hmem => ?_
        rw [hfresh x hmem.1 hmem.2] at hx
        cases hx
      have hN : int64 ((n : ℤ) + pageSize) = ((n + 2 ^ 20 : ℕ) : ℤ) := by
        rw [pageSize_eq]
        exact int64_of_fits (by omega) (by omega)
      have hmask : p % 2 ^ os.pageBits = 0 := Nat.mod_eq_zero_of_dvd hdvd
      have hdiv := Nat.div_add_mod' p (2 ^ 20)
      have hmod := Nat.mod_lt p (Nat.two_pow_pos 20)
      simp only [hN, and_osPageMask, hmask, and_pageMask, Int.toNat_natCast]
      rw [if_neg (by decide)]
      by_cases hzero : p % 2 ^ 20 = 0
      · -- the mapping is aligned as it is
        rw [hzero, if_neg (by decide), mmapTail_eq (Nat.dvd_of_mod_eq_zero hzero) (by omega)
          (by decide)]
        have htrim := mapped_of_trimmed (n := n) (k := 2 ^ 20) ans (Nat.le_refl p) (by omega) hpos
          (Nat.dvd_of_mod_eq_zero hzero) (by omega) hfresh
        rw [Nat.sub_self, fill_zero, Nat.add_sub_cancel_left] at htrim
        refine ⟨_, rfl, ?_⟩
        cases htail : ans.tail with
        | true => exact htrim
        | false =>
            exact .failed _ _ (.inr (.inr htail)) (fun x hx => hkept x hx _)
              fun _ h => absurd (htail.symm.trans h) (by decide)
      · have hcut : pageSize - ((p % 2 ^ 20 : ℕ) : ℤ) = ((2 ^ 20 - p % 2 ^ 20 : ℕ) : ℤ) := by
          rw [pageSize_eq]
          omega
        have haddr : uint64 ((p : ℤ) + ((2 ^ 20 - p % 2 ^ 20 : ℕ) : ℤ)) =
            p + (2 ^ 20 - p % 2 ^ 20) := uint64_natCast (n := p + (2 ^ 20 - p % 2 ^ 20)) (by omega)
        have hrest : ((n + 2 ^ 20 : ℕ) : ℤ) - ((2 ^ 20 - p % 2 ^ 20 : ℕ) : ℤ) =
            ((n + p % 2 ^ 20 : ℕ) : ℤ) := by omega
        have haligned : 2 ^ 20 ∣ p + (2 ^ 20 - p % 2 ^ 20) := by
          rw [show p + (2 ^ 20 - p % 2 ^ 20) = 2 ^ 20 * (p / 2 ^ 20 + 1) by omega]
          exact Nat.dvd_mul_right _ _
        rw [if_pos (by omega), hcut, unmap]
        cases hhead : ans.head with
        | false =>
            exact ⟨_, rfl, .failed _ _ (.inr (.inl hhead)) (fun x hx => hkept x hx _)
              fun h _ => absurd (hhead.symm.trans h) (by decide)⟩
        | true =>
            have htrim := mapped_of_trimmed (n := n) (k := 2 ^ 20) ans
              (Nat.le_add_right p (2 ^ 20 - p % 2 ^ 20)) (by omega) hpos haligned (by omega) hfresh
            rw [Nat.add_sub_cancel_left,
              show p + 2 ^ 20 - (p + (2 ^ 20 - p % 2 ^ 20)) = p % 2 ^ 20 by omega] at htrim
            simp only [if_true]
            rw [haddr, hrest, mmapTail_eq haligned (by omega) (by omega), Int.toNat_natCast]
            refine ⟨_, rfl, ?_⟩
            cases htail : ans.tail with
            | true => exact htrim
            | false =>
                refine .failed _ _ (.inr (.inr htail)) (fun x hx => ?_) fun _ h =>
                  absurd (htail.symm.trans h) (by decide)
                rw [← hkept x hx (some 0)]
                refine fill_of_not_mem fun hmem => ?_
                rw [hfresh x hmem.1 (by omega)] at hx
                cases hx

end Alloc
