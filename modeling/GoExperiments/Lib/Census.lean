import Mathlib.Algebra.GroupWithZero.Nat
import Mathlib.Data.List.Basic

/-!
# Counting parties

The parties of a concurrent system as a list of their states, one of which is
replaced at a step.  Conservation laws of such a system are sums of counts; these
are the rules for them.

* `countP_set_add`, `countP_cons_add`, `sum_map_set_add` — how a count or a sum changes, without
  subtraction, so that `omega` can add the changes up.
* `countP_le_one`, `index_unique` — a property of one party only.
* `countP_add_le` — two properties that exclude each other.
* `forall_mem_set`, `getElem?_set_of_ne`, `mem_set_of_ne` — what a move leaves alone.
-/

namespace Census

variable {α : Type*}

theorem countP_cons_add (p : α → Bool) (a : α) (l : List α) :
    (a :: l).countP p = l.countP p + (p a).toNat := by
  rw [List.countP_cons]
  cases p a <;> rfl

/-- One party moves from `a` to `b`. -/
theorem countP_set_add {l : List α} {k : ℕ} {a : α} (h : l[k]? = some a) (p : α → Bool) (b : α) :
    (l.set k b).countP p + (p a).toNat = l.countP p + (p b).toNat := by
  induction l generalizing k with
  | nil => exact absurd h (by simp)
  | cons c l ih =>
      cases k with
      | zero =>
          simp only [List.getElem?_cons_zero, Option.some.injEq] at h
          subst h
          rw [List.set_cons_zero, countP_cons_add, countP_cons_add]
          omega
      | succ k =>
          have hk := ih (k := k) (by simpa using h)
          rw [List.set_cons_succ, countP_cons_add, countP_cons_add]
          omega

/-- The same for a sum of what the parties have. -/
theorem sum_map_set_add {l : List α} {k : ℕ} {a : α} (h : l[k]? = some a) (f : α → ℕ) (b : α) :
    ((l.set k b).map f).sum + f a = (l.map f).sum + f b := by
  induction l generalizing k with
  | nil => exact absurd h (by simp)
  | cons c l ih =>
      cases k with
      | zero =>
          simp only [List.getElem?_cons_zero, Option.some.injEq] at h
          subst h
          simp only [List.set_cons_zero, List.map_cons, List.sum_cons]
          omega
      | succ k =>
          have hk := ih (k := k) (by simpa using h)
          simp only [List.set_cons_succ, List.map_cons, List.sum_cons]
          omega

theorem countP_concat (p : α → Bool) (l : List α) (a : α) :
    (l ++ [a]).countP p = l.countP p + (p a).toNat := by
  rw [List.countP_append, countP_cons_add, List.countP_nil, Nat.zero_add]

theorem countP_pos_index {l : List α} {p : α → Bool} :
    0 < l.countP p ↔ ∃ (k : ℕ) (a : α), l[k]? = some a ∧ p a = true := by
  rw [List.countP_pos_iff]
  constructor
  · rintro ⟨a, hmem, ha⟩
    obtain ⟨k, hk⟩ := List.getElem?_of_mem hmem
    exact ⟨k, a, hk, ha⟩
  · rintro ⟨k, a, hk, ha⟩
    exact ⟨a, List.mem_of_getElem? hk, ha⟩

/-- A property that only the first party can have. -/
theorem countP_tail_eq_zero {l : List α} {p : α → Bool} {c : α}
    (h : ∀ k a, (c :: l)[k]? = some a → p a = true → k = 0) : l.countP p = 0 := by
  refine List.countP_eq_zero.2 fun a ha hp => ?_
  obtain ⟨k, hk⟩ := List.getElem?_of_mem ha
  exact absurd (h (k + 1) a (by simpa using hk) hp) (Nat.succ_ne_zero k)

/-- A property that only the party with index `i` can have. -/
theorem countP_le_one {l : List α} {p : α → Bool} (i : ℕ)
    (h : ∀ k a, l[k]? = some a → p a = true → k = i) : l.countP p ≤ 1 := by
  induction l generalizing i with
  | nil => simp
  | cons c l ih =>
      rw [countP_cons_add]
      cases hc : p c with
      | false =>
          cases i with
          | zero => simp [countP_tail_eq_zero h]
          | succ i =>
              have hrest : l.countP p ≤ 1 := ih i fun k a hk hp =>
                Nat.succ.inj (h (k + 1) a (by simpa using hk) hp)
              simpa using hrest
      | true =>
          obtain rfl : 0 = i := h 0 c rfl hc
          simp [countP_tail_eq_zero h]

/-- A property that at most one party has. -/
theorem index_unique {l : List α} {p : α → Bool} (h : l.countP p ≤ 1) {j k : ℕ} {a b : α}
    (hj : l[j]? = some a) (ha : p a = true) (hk : l[k]? = some b) (hb : p b = true) : j = k := by
  induction l generalizing j k with
  | nil => exact absurd hj (by simp)
  | cons c l ih =>
      rw [countP_cons_add] at h
      have hpos : ∀ {i : ℕ} {d : α}, l[i]? = some d → p d = true → 0 < l.countP p :=
        fun hi hd => List.countP_pos_iff.2 ⟨_, List.mem_of_getElem? hi, hd⟩
      cases j with
      | zero =>
          cases k with
          | zero => rfl
          | succ k =>
              obtain rfl : c = a := by simpa using hj
              have := hpos (by simpa using hk) hb
              simp only [ha, Bool.toNat_true] at h
              omega
      | succ j =>
          cases k with
          | zero =>
              obtain rfl : c = b := by simpa using hk
              have := hpos (by simpa using hj) ha
              simp only [hb, Bool.toNat_true] at h
              omega
          | succ k => exact congrArg _ (ih (by omega) (by simpa using hj) (by simpa using hk))

/-- What holds of all parties and of the place one moves to holds of all of them
after. -/
theorem forall_mem_set {l : List α} {P : α → Prop} (h : ∀ a ∈ l, P a) {b : α} (hb : P b) (k : ℕ) :
    ∀ a ∈ l.set k b, P a := by
  intro a ha
  rcases List.mem_or_eq_of_mem_set ha with hmem | rfl
  · exact h a hmem
  · exact hb

theorem forall_mem_concat {l : List α} {P : α → Prop} (h : ∀ a ∈ l, P a) {b : α} (hb : P b) :
    ∀ a ∈ l ++ [b], P a := by
  rw [List.forall_mem_append, List.forall_mem_singleton]
  exact ⟨h, hb⟩

/-- The last party to arrive moves. -/
theorem set_length_concat (l : List α) (a b : α) : (l ++ [a]).set l.length b = l ++ [b] := by
  simp [List.set_append_right]

theorem getElem?_concat_of_some {l : List α} {i : ℕ} {a : α} (h : l[i]? = some a) (b : α) :
    (l ++ [b])[i]? = some a := by
  obtain ⟨hlt, -⟩ := List.getElem?_eq_some_iff.1 h
  rw [List.getElem?_append_left hlt, h]

theorem getElem?_set_self_of_some {l : List α} {k : ℕ} {a : α} (h : l[k]? = some a) (b : α) :
    (l.set k b)[k]? = some b := by
  obtain ⟨hlt, -⟩ := List.getElem?_eq_some_iff.1 h
  simp [hlt]

/-- Another party than the moving one, in another state. -/
theorem getElem?_set_of_ne {l : List α} {i j : ℕ} {a b : α} (hi : l[i]? = some a)
    (hj : l[j]? = some b) (hne : a ≠ b) (c : α) : (l.set i c)[j]? = some b := by
  have hij : i ≠ j := by
    rintro rfl
    rw [hi] at hj
    exact hne (Option.some.inj hj)
  rw [List.getElem?_set_ne hij, hj]

/-- A party that is not where the moving one was stays. -/
theorem mem_set_of_ne {l : List α} {k : ℕ} {a b : α} (hk : l[k]? = some b) (ha : a ∈ l)
    (hne : a ≠ b) (c : α) : a ∈ l.set k c := by
  obtain ⟨j, hj⟩ := List.getElem?_of_mem ha
  exact List.mem_of_getElem? (getElem?_set_of_ne hk hj hne.symm c)

/-- Parties with one of two properties that exclude each other. -/
theorem countP_add_le {p q r : α → Bool} (l : List α) (hpq : ∀ a, p a = true → q a = false)
    (hp : ∀ a, p a = true → r a = true) (hq : ∀ a, q a = true → r a = true) :
    l.countP p + l.countP q ≤ l.countP r := by
  induction l with
  | nil => simp
  | cons a l ih =>
      rw [countP_cons_add, countP_cons_add, countP_cons_add]
      have ha : (p a).toNat + (q a).toNat ≤ (r a).toNat := by
        cases hpa : p a with
        | true => simp [hpq a hpa, hp a hpa]
        | false =>
            cases hqa : q a with
            | true => simp [hq a hqa]
            | false => exact Nat.zero_le _
      omega

end Census
