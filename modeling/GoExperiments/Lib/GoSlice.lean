import Mathlib.Data.Int.Basic
import Mathlib.Data.List.Basic

/-!
# Go slices and the array behind them

A slice sees the first elements of an array.  Storing into it changes the array, and a shorter
slice of it keeps the array.

* `Slice` — an array and how many of its elements are seen.
* `load`, `store`, `copyWithin`, `upTo` — `s[i]`, `s[i] = a`, `copy(s[i:], s[j:])` and `s[:k]`, with
  the panics of the runtime; indices are integers.
* `load_eq`, `toList_store`, `toList_copyWithin`, `toList_upTo` — what they do to the elements seen,
  inside the bounds; `load_panic`, `store_panic`, `copyWithin_panic` — and outside.
* `Memory`, `Window` — slices that may share their elements, for programs in which that matters;
  `elems_copyWithin_of_apart` and `elems_removed` say what a copy within one of them does to what
  the other sees, and to what it sees itself.
-/

namespace GoSlice

variable {α : Type}

/-- How a call ends without a result: by a panic, or with an error. -/
inductive Fault where
  | panic (msg : String)
  | err (msg : String)
  deriving DecidableEq

/-- A slice: an array, of which the first `len` elements are seen. -/
structure Slice (α : Type) where
  array : List α
  len : ℕ
  len_le : len ≤ array.length
  deriving DecidableEq

namespace Slice

/-- A slice of an array of its own. -/
def of (xs : List α) : Slice α := ⟨xs, xs.length, le_rfl⟩

/-- The elements that are seen. -/
def toList (s : Slice α) : List α := s.array.take s.len

@[simp] theorem length_toList (s : Slice α) : s.toList.length = s.len := by
  rw [toList, List.length_take, min_eq_left s.len_le]

@[simp] theorem toList_of (xs : List α) : (of xs).toList = xs := List.take_length

/-! ## The operations -/

def indexOutOfRange : Fault := .panic "runtime error: index out of range"

def boundsOutOfRange : Fault := .panic "runtime error: slice bounds out of range"

/-- `s[i]` -/
def load (s : Slice α) (i : ℤ) : Except Fault α :=
  if h : 0 ≤ i ∧ i < s.len then .ok (s.toList.get ⟨i.toNat, by rw [length_toList]; omega⟩)
  else .error indexOutOfRange

/-- `s[i] = a` -/
def store (s : Slice α) (i : ℤ) (a : α) : Except Fault (Slice α) :=
  if 0 ≤ i ∧ i < s.len then
    .ok ⟨s.array.set i.toNat a, s.len, by rw [List.length_set]; exact s.len_le⟩
  else .error indexOutOfRange

/-- The array after `n` elements were copied from `src` to `dst`. -/
def moved (array : List α) (dst src n : ℕ) : List α :=
  array.take dst ++ ((array.drop src).take n ++ array.drop (dst + n))

theorem length_moved {array : List α} {dst src n : ℕ} (hdst : dst + n ≤ array.length)
    (hsrc : src + n ≤ array.length) : (moved array dst src n).length = array.length := by
  simp only [moved, List.length_append, List.length_take, List.length_drop]
  omega

theorem take_moved {array : List α} {dst src n len : ℕ} (hdst : dst + n ≤ len)
    (hsrc : src + n ≤ len) (hlen : len ≤ array.length) :
    (moved array dst src n).take len = moved (array.take len) dst src n := by
  simp only [moved, List.take_append, List.take_take, List.drop_take, List.length_take,
    List.length_drop]
  rw [min_eq_right (by omega : dst ≤ len), min_eq_left (by omega : dst ≤ len),
    min_eq_left (by omega : dst ≤ array.length), min_eq_left (by omega : n ≤ len - src),
    min_eq_right (by omega : n ≤ len - dst), min_eq_left (by omega : n ≤ array.length - src),
    Nat.sub_sub]

/-- `copy(s[dst:], s[src:])`: as many elements as both slices have. -/
def copyWithin (s : Slice α) (dst src : ℤ) : Except Fault (Slice α) :=
  if h : (0 ≤ dst ∧ dst ≤ s.len) ∧ 0 ≤ src ∧ src ≤ s.len then
    .ok ⟨moved s.array dst.toNat src.toNat (min (s.len - dst.toNat) (s.len - src.toNat)), s.len, by
      have hle := s.len_le
      rw [length_moved (by omega) (by omega)]
      exact hle⟩
  else .error boundsOutOfRange

/-- `s[:k]`, up to the end of the array. -/
def upTo (s : Slice α) (k : ℤ) : Except Fault (Slice α) :=
  if h : 0 ≤ k ∧ k ≤ s.array.length then .ok ⟨s.array, k.toNat, by omega⟩
  else .error boundsOutOfRange

/-! ## Inside the bounds -/

variable {s : Slice α}

theorem load_eq {k : ℕ} (hk : k < s.toList.length) : s.load k = .ok (s.toList.get ⟨k, hk⟩) := by
  have hbound : (0 : ℤ) ≤ k ∧ (k : ℤ) < s.len := by
    rw [length_toList] at hk
    omega
  rw [load, dif_pos hbound]
  rfl

theorem toList_store {k : ℕ} (hk : k < s.len) (a : α) :
    ∃ s', s.store k a = .ok s' ∧ s'.len = s.len ∧ s'.toList = s.toList.set k a := by
  have hbound : (0 : ℤ) ≤ k ∧ (k : ℤ) < s.len := by omega
  refine ⟨_, if_pos hbound, rfl, ?_⟩
  simp only [toList, Int.toNat_natCast]
  exact List.take_set ..

theorem toList_copyWithin {dst src : ℕ} (hdst : dst ≤ s.len) (hsrc : src ≤ s.len) :
    ∃ s', s.copyWithin dst src = .ok s' ∧ s'.len = s.len ∧
      s'.toList = moved s.toList dst src (min (s.len - dst) (s.len - src)) := by
  have hbound : ((0 : ℤ) ≤ dst ∧ (dst : ℤ) ≤ s.len) ∧ (0 : ℤ) ≤ src ∧ (src : ℤ) ≤ s.len := by omega
  refine ⟨_, dif_pos hbound, rfl, ?_⟩
  simp only [toList, Int.toNat_natCast]
  exact take_moved (by omega) (by omega) s.len_le

theorem toList_upTo {k : ℕ} (hk : k ≤ s.len) :
    ∃ s', s.upTo k = .ok s' ∧ s'.toList = s.toList.take k := by
  have hle := s.len_le
  have hbound : (0 : ℤ) ≤ k ∧ (k : ℤ) ≤ s.array.length := by omega
  refine ⟨_, dif_pos hbound, ?_⟩
  simp only [toList, Int.toNat_natCast]
  rw [List.take_take, min_eq_left hk]

/-! ## Outside the bounds -/

theorem load_panic {i : ℤ} (hi : ¬ (0 ≤ i ∧ i < s.len)) : s.load i = .error indexOutOfRange :=
  dif_neg hi

theorem store_panic {i : ℤ} (hi : ¬ (0 ≤ i ∧ i < s.len)) (a : α) :
    s.store i a = .error indexOutOfRange :=
  if_neg hi

theorem copyWithin_panic {dst src : ℤ}
    (h : ¬ ((0 ≤ dst ∧ dst ≤ s.len) ∧ 0 ≤ src ∧ src ≤ s.len)) :
    s.copyWithin dst src = .error boundsOutOfRange :=
  dif_neg h

end Slice

/-! ## Slices of one memory -/

/-- The elements of all arrays, by address.  Here two slices may share elements. -/
abbrev Memory (α : Type) := ℕ → α

/-- `copy` between two stretches of `n` elements, which may overlap. -/
def Memory.copy (mem : Memory α) (dst src n : ℕ) : Memory α :=
  fun a => if dst ≤ a ∧ a < dst + n then mem (src + (a - dst)) else mem a

/-- A slice of a memory: its first address and how many elements it sees. -/
structure Window where
  start : ℕ
  len : ℕ
  deriving DecidableEq

namespace Window

variable {w w' : Window}

/-- `s[i]`, for an index of the slice. -/
def load (w : Window) (mem : Memory α) (i : ℕ) : α := mem (w.start + i)

/-- The elements that are seen. -/
def elems (w : Window) (mem : Memory α) : List α := (List.range w.len).map (w.load mem)

/-- `copy(s[dst:], s[src:])`: the memory afterwards and the number of elements copied. -/
def copyWithin (w : Window) (mem : Memory α) (dst src : ℕ) : Memory α × ℕ :=
  let n := min (w.len - dst) (w.len - src)
  (mem.copy (w.start + dst) (w.start + src) n, n)

/-- `s[:k]`. -/
def upTo (w : Window) (k : ℕ) : Window := ⟨w.start, k⟩

/-- The address belongs to the slice. -/
def Has (w : Window) (a : ℕ) : Prop := w.start ≤ a ∧ a < w.start + w.len

/-- The slices share no element. -/
def Apart (w w' : Window) : Prop := ∀ a, w.Has a → ¬ w'.Has a

theorem Apart.symm (h : w.Apart w') : w'.Apart w := fun a ha' ha => h a ha ha'

theorem Apart.upTo (h : w.Apart w') {k : ℕ} (hk : k ≤ w'.len) : w.Apart (w'.upTo k) := by
  rintro a ha ⟨hle, hlt⟩
  have hlt' : a < w'.start + k := hlt
  exact h a ha ⟨hle, by omega⟩

@[simp] theorem length_elems (mem : Memory α) : (w.elems mem).length = w.len := by simp [elems]

theorem getElem?_elems (mem : Memory α) {i : ℕ} (hi : i < w.len) :
    (w.elems mem)[i]? = some (w.load mem i) := by
  simp [elems, hi]

/-- The element in front of which `u` stands. -/
theorem load_of_elems {mem : Memory α} {u v : List α} {x : α} (h : w.elems mem = u ++ x :: v) :
    u.length < w.len ∧ w.load mem u.length = x := by
  have hlt : u.length < w.len := by
    rw [← length_elems mem, h, List.length_append, List.length_cons]
    omega
  refine ⟨hlt, ?_⟩
  have hget := getElem?_elems mem hlt
  rw [h, List.getElem?_append_right (Nat.le_refl _), Nat.sub_self] at hget
  exact (Option.some.inj hget).symm

theorem drop_elems (mem : Memory α) {i : ℕ} (hi : i < w.len) :
    (w.elems mem).drop i = w.load mem i :: (w.elems mem).drop (i + 1) := by
  rw [List.drop_eq_getElem_cons (by rw [length_elems]; exact hi)]
  simp [elems]

/-- A copy within one slice is not seen through one that shares nothing with it. -/
theorem elems_copyWithin_of_apart (h : w.Apart w') (mem : Memory α) (dst src : ℕ) :
    w.elems (w'.copyWithin mem dst src).1 = w.elems mem := by
  unfold elems
  refine List.map_congr_left fun i hi => ?_
  have hlt : i < w.len := List.mem_range.1 hi
  have hout : ¬ w'.Has (w.start + i) := h _ ⟨by omega, by omega⟩
  simp only [load, copyWithin, Memory.copy]
  refine if_neg fun hin => hout ⟨by omega, by omega⟩

/-- What `s[:j+copy(s[j:], s[j+1:])]` sees: everything but the element at `j`. -/
theorem elems_removed (mem : Memory α) {j : ℕ} (hj : j < w.len) :
    (w.upTo (j + (w.copyWithin mem j (j + 1)).2)).elems (w.copyWithin mem j (j + 1)).1 =
      (w.elems mem).eraseIdx j := by
  have hn : min (w.len - j) (w.len - (j + 1)) = w.len - (j + 1) := by omega
  refine List.ext_getElem ?_ fun i h₁ h₂ => ?_
  · rw [List.length_eraseIdx_of_lt (by rw [length_elems]; exact hj), length_elems, length_elems]
    simp only [upTo, copyWithin, hn]
    omega
  · rw [List.getElem_eraseIdx]
    simp only [elems, upTo, copyWithin, hn, load, List.getElem_map, List.getElem_range,
      Memory.copy] at h₁ ⊢
    have hi : i < w.len - 1 := by
      rw [List.length_map, List.length_range] at h₁
      omega
    split_ifs with hin hlt hlt
    · omega
    · congr 1
      omega
    · rfl
    · omega

end Window

end GoSlice
