import Mathlib.Data.Set.Insert

/-!
# Arrays of bits as sets

* `ones` — the set of the positions of the bits that are set; `ones_set` says what setting a bit
  does to it.
* `cover pos S` — the positions of a set of items, each of which has some positions.
* `Maybe pos S y` — an approximate test for membership: all positions of `y` are covered.  It has no
  false negatives (`maybe_of_mem`).
-/

namespace BitArray

/-- The positions of the bits that are set. -/
def ones (bits : List Bool) : Set ℕ := { i | bits[i]? = some true }

theorem mem_ones {bits : List Bool} {i : ℕ} : i ∈ ones bits ↔ bits[i]? = some true := Iff.rfl

theorem ones_replicate (n : ℕ) : ones (List.replicate n false) = ∅ := by
  ext i
  simp [mem_ones, List.getElem?_replicate]

theorem ones_set {bits : List Bool} {i : ℕ} (h : i < bits.length) :
    ones (bits.set i true) = insert i (ones bits) := by
  ext j
  rw [Set.mem_insert_iff, mem_ones, mem_ones]
  by_cases hj : j = i
  · subst hj
    simp [List.getElem?_set_self h]
  · simp [List.getElem?_set_ne (Ne.symm hj), hj]

/-! ## Approximate membership -/

variable {α : Type*} {pos : α → Set ℕ} {S : Set α}

/-- The positions of the items of `S`. -/
def cover (pos : α → Set ℕ) (S : Set α) : Set ℕ := { i | ∃ x ∈ S, i ∈ pos x }

theorem cover_empty : cover pos ∅ = ∅ := by
  ext i
  simp [cover]

theorem cover_insert (x : α) : cover pos (insert x S) = cover pos S ∪ pos x := by
  ext i
  simp only [cover, Set.mem_insert_iff, Set.mem_union]
  constructor
  · rintro ⟨y, rfl | hy, hi⟩
    · exact .inr hi
    · exact .inl ⟨y, hy, hi⟩
  · rintro (⟨y, hy, hi⟩ | hi)
    · exact ⟨y, .inr hy, hi⟩
    · exact ⟨x, .inl rfl, hi⟩

/-- All positions of `y` are covered. -/
def Maybe (pos : α → Set ℕ) (S : Set α) (y : α) : Prop := pos y ⊆ cover pos S

/-- **No false negatives.** -/
theorem maybe_of_mem {y : α} (hy : y ∈ S) : Maybe pos S y := fun _ hi => ⟨y, hy, hi⟩

end BitArray
