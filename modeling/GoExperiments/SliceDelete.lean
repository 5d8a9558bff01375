import Mathlib.Data.List.Perm.Basic
import GoExperiments.Lib.GoSlice

/-!
# Deleting from a slice, in three ways

`slice-delete/main.go` takes the element at an index out of a slice: by moving the last element
into its place, by copying the rest one place down, and by appending everything else to a new
slice.  The first two work on the array of the argument.

* `vFastRemoveAt`, `okRemoveAt`, `slowRemoveAt` — the source.
* `okRemoveAt_inside`, `vFastRemoveAt_inside`, `slowRemoveAt_of_le` — what they return for an index
  of the slice, and `slowRemoveAt` for its length too.
* `okRemoveAt_outside`, `vFastRemoveAt_outside`, `slowRemoveAt_outside` — how they fail elsewhere.
* `deletions_agree_iff` — they agree on every slice and every integer but one: at the length of
  the slice, `slowRemoveAt` reports no error.
-/

namespace SliceDelete

open GoSlice

/-! ## The source -/

def vFastRemoveAt (i : ℤ) (src : Slice ℤ) : Except Fault (Slice ℤ) := do
  let last ← src.load (src.len - 1)
  let src ← src.store i last
  let src ← src.store (src.len - 1) 0
  src.upTo (src.len - 1)

def okRemoveAt (i : ℤ) (src : Slice ℤ) : Except Fault (Slice ℤ) := do
  let src ← src.copyWithin i (i + 1)
  let src ← src.store (src.len - 1) 0
  src.upTo (src.len - 1)

/-- The loop of `slowRemoveAt`, from position `pos` on. -/
def slowLoop (i : ℤ) : ℕ → List ℤ → List ℤ → List ℤ
  | _, [], n => n
  | pos, item :: rest, n => slowLoop i (pos + 1) rest (if (pos : ℤ) ≠ i then n ++ [item] else n)

def slowRemoveAt (i : ℤ) (src : Slice ℤ) : Except Fault (Slice ℤ) :=
  if i < 0 ∨ i > src.len then .error (.err "invalid index")
  else .ok (.of (slowLoop i 0 src.toList []))

/-! ## An index of the slice -/

variable {src : Slice ℤ} {k : ℕ}

/-- Both in-place deletions end the same way: the last element is erased and cut off. -/
theorem erase_last {s : Slice ℤ} (hpos : 0 < s.len) :
    ∃ r, (do let s ← s.store (s.len - 1) 0; s.upTo (s.len - 1)) = .ok r ∧
      r.toList = s.toList.dropLast := by
  have hcast : (s.len : ℤ) - 1 = (s.len - 1 : ℕ) := by omega
  obtain ⟨s', hstore, hlen, hs'⟩ := Slice.toList_store (s := s) (k := s.len - 1) (by omega) 0
  obtain ⟨r, hupTo, hr⟩ := Slice.toList_upTo (s := s') (k := s.len - 1) (by omega)
  refine ⟨r, ?_, ?_⟩
  · rw [hcast, hstore]
    simp only [bind, Except.bind]
    rw [hlen, hcast, hupTo]
  · rw [hr, hs', List.take_set_of_le le_rfl, List.dropLast_eq_take, Slice.length_toList]

theorem okRemoveAt_inside (hk : k < src.len) :
    ∃ r, okRemoveAt k src = .ok r ∧ r.toList = src.toList.eraseIdx k := by
  have hnext : k + 1 ≤ src.len := hk
  obtain ⟨s, hcopy, hlen, hs⟩ := Slice.toList_copyWithin (Nat.le_of_lt hk) hnext
  obtain ⟨r, hrest, hr⟩ := erase_last (s := s) (by omega)
  refine ⟨r, ?_, ?_⟩
  · rw [Int.natCast_add, Int.natCast_one] at hcopy
    rw [okRemoveAt, hcopy]
    exact hrest
  · have hcount : min (src.len - k) (src.len - (k + 1)) = src.len - (k + 1) := by omega
    have hlast : k + (src.len - (k + 1)) = src.len - 1 := by omega
    -- what follows `k` has moved down, and the last element is there twice
    have hmoved : s.toList = src.toList.eraseIdx k ++ src.toList.drop (src.len - 1) := by
      have hall : (src.toList.drop (k + 1)).take (src.len - (k + 1)) = src.toList.drop (k + 1) :=
        List.take_of_length_le (by simp)
      rw [hs, hcount, Slice.moved, hlast, hall, List.eraseIdx_eq_take_drop_succ, List.append_assoc]
    have htwice : (src.toList.drop (src.len - 1)).length = 1 := by
      rw [List.length_drop, Slice.length_toList]
      omega
    obtain ⟨x, hx⟩ := List.length_eq_one_iff.1 htwice
    rw [hr, hmoved, hx, List.dropLast_concat]

/-- The loop keeps everything else. -/
theorem slowLoop_eq (rest : List ℤ) (pos : ℕ) (n : List ℤ) :
    slowLoop k pos rest n = n ++ if pos ≤ k then rest.eraseIdx (k - pos) else rest := by
  induction rest generalizing pos n with
  | nil => simp [slowLoop]
  | cons item rest ih =>
      rw [slowLoop, ih]
      obtain hlt | rfl | hgt := Nat.lt_trichotomy pos k
      · have hne : (pos : ℤ) ≠ k := by omega
        have hsub : k - pos = k - (pos + 1) + 1 := by omega
        have hnext : pos + 1 ≤ k := hlt
        rw [if_pos hne, if_pos hnext, if_pos (Nat.le_of_lt hlt), hsub, List.eraseIdx_cons_succ,
          List.append_assoc]
        rfl
      · have hnext : ¬ pos + 1 ≤ pos := by omega
        simp [hnext]
      · have hne : (pos : ℤ) ≠ k := by omega
        rw [if_pos hne, if_neg (by omega), if_neg (by omega), List.append_assoc]
        rfl

theorem slowRemoveAt_of_le (hk : k ≤ src.len) :
    ∃ r, slowRemoveAt k src = .ok r ∧ r.toList = src.toList.eraseIdx k := by
  have hcheck : ¬ ((k : ℤ) < 0 ∨ (k : ℤ) > src.len) := by omega
  refine ⟨_, if_neg hcheck, ?_⟩
  rw [Slice.toList_of, slowLoop_eq, if_pos (Nat.zero_le k)]
  rfl

/-- The slice with its last element moved to position `k`. -/
def lastMovedTo (k : ℕ) (xs : List ℤ) : List ℤ :=
  match xs.getLast? with
  | none => []
  | some last => (xs.set k last).dropLast

/-- Moving the last element deletes the same elements, in another order. -/
theorem lastMovedTo_perm {xs : List ℤ} (hk : k < xs.length) :
    (lastMovedTo k xs).Perm (xs.eraseIdx k) := by
  obtain rfl | ⟨init, last, rfl⟩ := List.eq_nil_or_concat xs
  · exact absurd hk (Nat.not_lt_zero k)
  rw [List.concat_eq_append] at hk ⊢
  rw [lastMovedTo, List.getLast?_concat]
  rw [List.length_append, List.length_singleton] at hk
  simp only
  obtain hlt | rfl := Nat.lt_succ_iff_lt_or_eq.1 hk
  · rw [List.set_append_left _ _ hlt, List.dropLast_concat, List.eraseIdx_append_of_lt_length hlt]
    exact (List.set_perm_cons_eraseIdx hlt last).trans (List.perm_append_singleton _ _).symm
  · rw [List.set_append_right _ _ le_rfl, List.eraseIdx_append_of_length_le le_rfl, Nat.sub_self]
    simp

theorem vFastRemoveAt_inside (hk : k < src.len) :
    ∃ r, vFastRemoveAt k src = .ok r ∧ r.toList = lastMovedTo k src.toList := by
  have hcast : (src.len : ℤ) - 1 = (src.len - 1 : ℕ) := by omega
  have hlast : src.len - 1 < src.toList.length := by
    rw [Slice.length_toList]
    omega
  obtain ⟨s, hstore, hlen, hs⟩ :=
    Slice.toList_store (s := src) hk (src.toList.get ⟨src.len - 1, hlast⟩)
  obtain ⟨r, hrest, hr⟩ := erase_last (s := s) (by omega)
  refine ⟨r, ?_, ?_⟩
  · rw [vFastRemoveAt, hcast, Slice.load_eq hlast]
    simp only [bind, Except.bind]
    rw [hstore]
    exact hrest
  · have hget : src.toList.getLast? = some (src.toList.get ⟨src.len - 1, hlast⟩) := by
      have hidx : src.toList.length - 1 = src.len - 1 := by rw [Slice.length_toList]
      rw [List.getLast?_eq_getElem?, hidx]
      exact List.getElem?_eq_getElem hlast
    rw [hr, hs, lastMovedTo, hget]

/-! ## Any other integer -/

variable {i : ℤ}

theorem okRemoveAt_outside (hi : ¬ (0 ≤ i ∧ i < src.len)) :
    okRemoveAt i src = .error Slice.boundsOutOfRange := by
  rw [okRemoveAt, Slice.copyWithin_panic (by omega)]
  rfl

theorem vFastRemoveAt_outside (hi : ¬ (0 ≤ i ∧ i < src.len)) :
    vFastRemoveAt i src = .error Slice.indexOutOfRange := by
  rw [vFastRemoveAt]
  -- an empty slice has no last element
  by_cases hempty : src.len = 0
  · rw [Slice.load_panic (by omega)]
    rfl
  · have hcast : (src.len : ℤ) - 1 = (src.len - 1 : ℕ) := by omega
    rw [hcast, Slice.load_eq (by rw [Slice.length_toList]; omega)]
    simp only [bind, Except.bind]
    rw [Slice.store_panic hi]

theorem slowRemoveAt_outside (hi : i < 0 ∨ src.len < i) :
    slowRemoveAt i src = .error (.err "invalid index") :=
  if_pos hi

/-! ## Agreement -/

/-- The three deletions agree: for an index of the slice `okRemoveAt` and `slowRemoveAt` return the
slice without its element there, and `vFastRemoveAt` a permutation of it, with the last element in
its place; for any other integer the two in-place deletions panic and `slowRemoveAt` returns an error. -/
def Agree (src : Slice ℤ) (i : ℤ) : Prop :=
  (0 ≤ i ∧ i < src.len →
    ∃ ok slow fast, okRemoveAt i src = .ok ok ∧ slowRemoveAt i src = .ok slow ∧
      vFastRemoveAt i src = .ok fast ∧ ok.toList = src.toList.eraseIdx i.toNat ∧
      slow.toList = ok.toList ∧ fast.toList = lastMovedTo i.toNat src.toList ∧
      fast.toList.Perm ok.toList) ∧
  (¬ (0 ≤ i ∧ i < src.len) →
    (∃ msg, okRemoveAt i src = .error (.panic msg)) ∧
      (∃ msg, vFastRemoveAt i src = .error (.panic msg)) ∧
      ∃ msg, slowRemoveAt i src = .error (.err msg))

/-- **The three deletions agree at every integer but the length of the slice.** -/
theorem deletions_agree_iff (src : Slice ℤ) (i : ℤ) : Agree src i ↔ i ≠ src.len := by
  constructor
  · rintro ⟨-, houtside⟩ rfl
    obtain ⟨-, -, msg, herr⟩ := houtside (by omega)
    obtain ⟨r, hok, -⟩ := slowRemoveAt_of_le (Nat.le_refl src.len)
    rw [hok] at herr
    cases herr
  · intro hne
    constructor
    · rintro ⟨h0, hlt⟩
      obtain ⟨k, rfl⟩ := Int.eq_ofNat_of_zero_le h0
      have hk : k < src.len := by omega
      obtain ⟨ok, hok, hokList⟩ := okRemoveAt_inside hk
      obtain ⟨slow, hslow, hslowList⟩ := slowRemoveAt_of_le (Nat.le_of_lt hk)
      obtain ⟨fast, hfast, hfastList⟩ := vFastRemoveAt_inside hk
      refine ⟨ok, slow, fast, hok, hslow, hfast, hokList, hslowList.trans hokList.symm, hfastList, ?_⟩
      rw [hfastList, hokList]
      exact lastMovedTo_perm (by rw [Slice.length_toList]; exact hk)
    · intro hi
      exact ⟨⟨_, okRemoveAt_outside hi⟩, ⟨_, vFastRemoveAt_outside hi⟩,
        ⟨_, slowRemoveAt_outside (by omega)⟩⟩

/-- Deleting at the length: a panic, a panic, and the slice as it was. -/
theorem slow_accepts_length :
    okRemoveAt 2 (.of [7, 8]) = .error Slice.boundsOutOfRange ∧
      vFastRemoveAt 2 (.of [7, 8]) = .error Slice.indexOutOfRange ∧
      slowRemoveAt 2 (.of [7, 8]) = .ok (.of [7, 8]) ∧ ¬ Agree (.of [7, 8]) 2 := by
  refine ⟨by decide, by decide, by decide, fun h => ?_⟩
  obtain ⟨-, -, msg, herr⟩ := h.2 (by decide)
  cases herr

end SliceDelete
