import GoExperiments.Lib.GoSlice
import GoExperiments.Lib.Lines
import Mathlib.Data.List.Lattice
import Mathlib.Data.List.Lemmas

/-!
# The fast list intersection

`list-intersect/fast/fast.go` runs over the shorter of two slices, looks every element up in
the longer one, and takes what it found out of it in place.  It stops early when the elements
that follow a match in the two slices differ.

The two arguments are windows of one memory, so that they may also share elements; the loops
read both from the memory as the removals have left it.

* `scan`, `outer`, `intersection` — the loops of the source; `intersection_eq` says what they
  compute for slices that share nothing, as a recursion over the shorter list (`found`).
* `intersection_counts_iff` — for such slices the result has every value as often as both
  arguments do exactly when no early stop leaves a common value behind (`NothingLost`).
-/

namespace ListIntersect

open GoSlice

/-! ## The loops -/

/-- What the loops of `intersection` change: their variables and the memory. -/
structure Vars where
  inter : List ℤ
  done : Bool
  mem : Memory ℤ
  high : Window

/-- The body of the inner loop when the element `l` at index `i` of `low` is found at index `j`
of `high`. -/
def Vars.matched (low : Window) (i : ℕ) (l : ℤ) (s : Vars) (j : ℕ) : Vars :=
  let f1 := i + 1
  let f2 := j + 1
  let copied := s.high.copyWithin s.mem j (j + 1)
  { inter := s.inter ++ [l]
    done := if f1 < low.len ∧ f2 < s.high.len ∧ low.load s.mem f1 ≠ s.high.load s.mem f2 then true
      else s.done
    mem := copied.1
    high := s.high.upTo (j + copied.2) }

/-- The inner loop, at index `j` and with `k` rounds to go. -/
def scan (low : Window) (i : ℕ) (l : ℤ) : ℕ → ℕ → Vars → Vars
  | _, 0, s => s
  | j, k + 1, s =>
      if l = s.high.load s.mem j then s.matched low i l j else scan low i l (j + 1) k s

/-- The outer loop, at index `i` and with `k` rounds to go.  What it finds there is read from the
memory as the removals so far have left it. -/
def outer (low : Window) : ℕ → ℕ → Vars → Vars
  | _, 0, s => s
  | i, k + 1, s =>
      let s' := scan low i (low.load s.mem i) 0 s.high.len s
      if s'.done then s' else outer low (i + 1) k s'

/-- The shorter of the two arguments; the first when they are equally long. -/
def lowOf (a b : Window) : Window := if a.len > b.len then b else a

/-- The other one. -/
def highOf (a b : Window) : Window := if a.len > b.len then a else b

/-- `intersection`, on two slices of a memory. -/
def intersection (mem : Memory ℤ) (a b : Window) : List ℤ :=
  (outer (lowOf a b) 0 (lowOf a b).len ⟨[], false, mem, highOf a b⟩).inter

/-! ## What the loops compute -/

/-- The elements after a match differ: the early stop. -/
def stops : List ℤ → List ℤ → Bool
  | x :: _, y :: _ => x != y
  | _, _ => false

/-- The result, as a recursion over what is left of the shorter list. -/
def found : List ℤ → List ℤ → List ℤ
  | [], _ => []
  | l :: post, high =>
      if l ∈ high then
        l :: if stops post (high.drop (high.idxOf l + 1)) then [] else found post (high.erase l)
      else found post high

theorem scan_of_not_mem {low : Window} {i : ℕ} {l : ℤ} {s : Vars} {j k : ℕ}
    (hjk : j + k = s.high.len) (hl : l ∉ (s.high.elems s.mem).drop j) :
    scan low i l j k s = s := by
  induction k generalizing j with
  | zero => rw [scan]
  | succ k ih =>
      rw [Window.drop_elems s.mem (by omega), List.mem_cons, not_or] at hl
      rw [scan, if_neg hl.1, ih (by omega) hl.2]

/-- The inner loop stops at the first occurrence. -/
theorem scan_of_mem (low : Window) (i : ℕ) {l : ℤ} {s : Vars} {j k : ℕ} {u v : List ℤ}
    (hjk : j + k = s.high.len) (hsplit : (s.high.elems s.mem).drop j = u ++ l :: v) (hu : l ∉ u) :
    scan low i l j k s = s.matched low i l (j + u.length) := by
  induction u generalizing j k with
  | nil =>
      have hj : j < s.high.len := by
        have hlen := congrArg List.length hsplit
        simp at hlen
        omega
      obtain ⟨k, rfl⟩ : ∃ k', k = k' + 1 := ⟨k - 1, by omega⟩
      rw [Window.drop_elems s.mem hj] at hsplit
      rw [scan, if_pos (List.cons.inj hsplit).1.symm]
      rfl
  | cons h u ih =>
      rw [List.mem_cons, not_or] at hu
      have hj : j < s.high.len := by
        have hlen := congrArg List.length hsplit
        simp at hlen
        omega
      obtain ⟨k, rfl⟩ : ∃ k', k = k' + 1 := ⟨k - 1, by omega⟩
      rw [Window.drop_elems s.mem hj] at hsplit
      obtain ⟨hhead, htail⟩ := List.cons.inj hsplit
      rw [scan, if_neg (by rw [hhead]; exact hu.1), ih (by omega) htail hu.2, List.length_cons]
      congr 1
      omega

/-- The element behind a given one. -/
theorem load_next {w : Window} {mem : Memory ℤ} {u v : List ℤ} {x y : ℤ}
    (h : w.elems mem = u ++ x :: y :: v) :
    u.length + 1 < w.len ∧ w.load mem (u.length + 1) = y := by
  have h' : w.elems mem = (u ++ [x]) ++ y :: v := by rw [h, List.append_assoc]; rfl
  have hload := Window.load_of_elems h'
  rwa [List.length_append, List.length_singleton] at hload

/-- There is none behind the last. -/
theorem not_next {w : Window} {mem : Memory ℤ} {u : List ℤ} {x : ℤ}
    (h : w.elems mem = u ++ [x]) : ¬ u.length + 1 < w.len := by
  have hlen := congrArg List.length h
  simp at hlen
  omega

/-- The look-ahead at a match, on the two lists around it. -/
theorem lookAhead_iff {low high : Window} {mem : Memory ℤ} {pre post u v : List ℤ} {l : ℤ}
    (hlow : low.elems mem = pre ++ l :: post) (hhigh : high.elems mem = u ++ l :: v) :
    (pre.length + 1 < low.len ∧ u.length + 1 < high.len ∧
      low.load mem (pre.length + 1) ≠ high.load mem (u.length + 1)) ↔ stops post v = true := by
  cases post with
  | nil => simp [stops, not_next hlow]
  | cons x post =>
      obtain ⟨hlt, hx⟩ := load_next hlow
      cases v with
      | nil => simp [stops, not_next hhigh]
      | cons y v =>
          obtain ⟨hlt', hy⟩ := load_next hhigh
          simp [stops, hlt, hlt', hx, hy]

/-- Around the first occurrence. -/
theorem first_occurrence {high u v : List ℤ} {l : ℤ} (hhigh : high = u ++ l :: v) (hu : l ∉ u) :
    l ∈ high ∧ high.drop (high.idxOf l + 1) = v ∧ high.erase l = u ++ v := by
  subst hhigh
  refine ⟨by simp, ?_, ?_⟩
  · rw [List.idxOf_append_of_notMem hu, List.idxOf_cons_self]
    simp
  · rw [List.erase_append_right _ hu, List.erase_cons_head]

theorem found_cons_of_mem {high post u v : List ℤ} {l : ℤ} (hhigh : high = u ++ l :: v)
    (hu : l ∉ u) :
    found (l :: post) high = l :: if stops post v then [] else found post (u ++ v) := by
  obtain ⟨hmem, hdrop, herase⟩ := first_occurrence hhigh hu
  rw [found, if_pos hmem, hdrop, herase]

/-- What a match leaves of the longer list, and that the shorter one is not touched if it shares
nothing with it. -/
theorem matched_spec {low : Window} {i : ℕ} {l : ℤ} {s : Vars} {u v : List ℤ}
    (hapart : low.Apart s.high) (hhigh : s.high.elems s.mem = u ++ l :: v) :
    let s' := s.matched low i l u.length
    s'.high.elems s'.mem = u ++ v ∧ low.elems s'.mem = low.elems s.mem ∧ low.Apart s'.high := by
  have hlt : u.length < s.high.len := (Window.load_of_elems hhigh).1
  refine ⟨?_, Window.elems_copyWithin_of_apart hapart _ _ _, hapart.upTo ?_⟩
  · have hremoved := Window.elems_removed s.mem hlt
    rw [hhigh, List.eraseIdx_append_of_length_le (Nat.le_refl _), Nat.sub_self] at hremoved
    exact hremoved
  · simp only [Window.copyWithin]
    omega

/-- The outer loop, from any of its rounds on, on slices that share nothing. -/
theorem outer_eq {low : Window} (pre rest : List ℤ) (s : Vars) (hapart : low.Apart s.high)
    (hlow : low.elems s.mem = pre ++ rest) (hdone : s.done = false) :
    (outer low pre.length rest.length s).inter =
      s.inter ++ found rest (s.high.elems s.mem) := by
  induction rest generalizing pre s with
  | nil => simp [outer, found]
  | cons l post ih =>
      have hlen : (pre ++ [l]).length = pre.length + 1 := by simp
      rw [List.length_cons, outer, (Window.load_of_elems hlow).2]
      by_cases hl : l ∈ s.high.elems s.mem
      · obtain ⟨u, v, hhigh, hu⟩ := List.eq_append_cons_of_mem hl
        rw [scan_of_mem low pre.length (Nat.zero_add _) hhigh hu, Nat.zero_add,
          found_cons_of_mem hhigh hu]
        have hstops : (s.matched low pre.length l u.length).done = stops post v := by
          have hlook := lookAhead_iff hlow hhigh
          simp only [Vars.matched, hlook, hdone]
          cases stops post v <;> rfl
        obtain ⟨hleft, hkept, hapart'⟩ := matched_spec (i := pre.length) hapart hhigh
        by_cases hstop : stops post v = true
        · rw [hstops, if_pos hstop, if_pos hstop]
          rfl
        · have hgoes : (s.matched low pre.length l u.length).done = false :=
            hstops.trans (Bool.eq_false_iff.2 hstop)
          have hnext :
              low.elems (s.matched low pre.length l u.length).mem = (pre ++ [l]) ++ post := by
            rw [hkept, hlow, List.append_assoc]
            rfl
          rw [hstops, if_neg hstop, if_neg hstop, ← hlen, ih (pre ++ [l]) _ hapart' hnext hgoes,
            hleft]
          show (s.inter ++ [l]) ++ _ = _
          rw [List.append_assoc]
          rfl
      · have hnext : low.elems s.mem = (pre ++ [l]) ++ post := by
          rw [hlow, List.append_assoc]
          rfl
        rw [scan_of_not_mem (Nat.zero_add _) hl, hdone, if_neg Bool.false_ne_true, found, if_neg hl,
          ← hlen]
        exact ih (pre ++ [l]) s hapart hnext hdone

theorem lowOf_apart_highOf {a b : Window} (h : a.Apart b) : (lowOf a b).Apart (highOf a b) := by
  unfold lowOf highOf
  split
  · exact h.symm
  · exact h

/-- **What `intersection` computes** on slices that share nothing. -/
theorem intersection_eq {mem : Memory ℤ} {a b : Window} (h : a.Apart b) :
    intersection mem a b = found ((lowOf a b).elems mem) ((highOf a b).elems mem) := by
  have houter := outer_eq [] ((lowOf a b).elems mem) ⟨[], false, mem, highOf a b⟩
    (lowOf_apart_highOf h) rfl rfl
  rw [Window.length_elems] at houter
  exact houter

/-! ## The multiset intersection -/

/-- No early stop leaves a common value behind.  When the loop is at `l`, with `pre` behind it,
what is left of the longer list is `high.diff pre`; the stop is at a match that is followed by
`x` in the one list and by `y` in the other. -/
def NothingLost (low high : List ℤ) : Prop :=
  ∀ pre l x post u y v, low = pre ++ l :: x :: post → high.diff pre = u ++ l :: y :: v → l ∉ u →
    x ≠ y → List.Disjoint (x :: post) (u ++ y :: v)

/-- Every value as often as in both lists. -/
def CountsMin (result low high : List ℤ) : Prop :=
  ∀ z, result.count z = min (low.count z) (high.count z)

theorem nothingLost_nil (high : List ℤ) : NothingLost [] high := by
  intro pre l x post u y v hlow
  exact absurd hlow (by simp)

theorem nothingLost_cons {l : ℤ} {rest high : List ℤ} :
    NothingLost (l :: rest) high ↔
      (∀ x post u y v, rest = x :: post → high = u ++ l :: y :: v → l ∉ u → x ≠ y →
        List.Disjoint (x :: post) (u ++ y :: v)) ∧ NothingLost rest (high.erase l) := by
  constructor
  · intro h
    refine ⟨fun x post u y v hrest hhigh => h [] l x post u y v ?_ hhigh, ?_⟩
    · rw [hrest]
      rfl
    · intro pre l' x post u y v hrest hdiff
      refine h (l :: pre) l' x post u y v ?_ ?_
      · rw [hrest]
        rfl
      · rw [List.diff_cons]
        exact hdiff
  · rintro ⟨hhead, htail⟩ pre l' x post u y v hlow hdiff
    cases pre with
    | nil =>
        obtain ⟨rfl, hrest⟩ := List.cons.inj hlow
        exact hhead x post u y v hrest hdiff
    | cons p pre =>
        obtain ⟨rfl, hrest⟩ := List.cons.inj hlow
        rw [List.diff_cons] at hdiff
        exact htail pre l' x post u y v hrest hdiff

/-- With nothing in common there is nothing to lose. -/
theorem nothingLost_of_disjoint {low high : List ℤ} (h : List.Disjoint low high) :
    NothingLost low high := by
  intro pre l x post u y v hlow hdiff
  have hl : l ∈ high := by
    refine List.diff_subset high pre ?_
    rw [hdiff]
    simp
  exact absurd hl (h (by rw [hlow]; simp))

theorem disjoint_iff_min_count {xs ys : List ℤ} :
    List.Disjoint xs ys ↔ ∀ z, min (xs.count z) (ys.count z) = 0 := by
  constructor
  · intro h z
    by_cases hz : z ∈ xs
    · rw [List.count_eq_zero_of_not_mem (h hz), Nat.min_zero]
    · rw [List.count_eq_zero_of_not_mem hz, Nat.zero_min]
  · intro h z hx hy
    have hpos := List.count_pos_iff.2 hx
    have hpos' := List.count_pos_iff.2 hy
    have hz := h z
    omega

/-- A value of the shorter list that the longer one does not have. -/
theorem countsMin_of_not_mem {result low high : List ℤ} {l : ℤ} (hl : l ∉ high) :
    CountsMin result (l :: low) high ↔ CountsMin result low high := by
  refine forall_congr' fun z => ?_
  by_cases hz : l = z
  · subst hz
    rw [List.count_eq_zero_of_not_mem hl, Nat.min_zero, Nat.min_zero]
  · rw [List.count_cons_of_ne hz]

/-- A value of both lists. -/
theorem countsMin_cons {result low u v : List ℤ} {l : ℤ} :
    CountsMin (l :: result) (l :: low) (u ++ l :: v) ↔ CountsMin result low (u ++ v) := by
  refine forall_congr' fun z => ?_
  simp only [List.count_cons, List.count_append]
  split <;> omega

theorem countsMin_nil {low high : List ℤ} : CountsMin [] low high ↔ List.Disjoint low high := by
  rw [disjoint_iff_min_count]
  exact forall_congr' fun z => by rw [List.count_nil, eq_comm]

theorem stops_iff {post v : List ℤ} :
    stops post v = true ↔ ∃ x post' y v', post = x :: post' ∧ v = y :: v' ∧ x ≠ y := by
  cases post with
  | nil => simp [stops]
  | cons x post =>
      cases v with
      | nil => simp [stops]
      | cons y v => simp [stops]

/-- **When nothing is missing** from the result, on lists. -/
theorem countsMin_found_iff (low high : List ℤ) :
    CountsMin (found low high) low high ↔ NothingLost low high := by
  induction low generalizing high with
  | nil => exact iff_of_true (fun z => by simp [found]) (nothingLost_nil high)
  | cons l post ih =>
      rw [nothingLost_cons]
      by_cases hl : l ∈ high
      · obtain ⟨u, v, rfl, hu⟩ := List.eq_append_cons_of_mem hl
        obtain ⟨-, -, herase⟩ := first_occurrence (rfl : u ++ l :: v = u ++ l :: v) hu
        rw [found_cons_of_mem rfl hu, countsMin_cons, herase]
        by_cases hstop : stops post v = true
        · obtain ⟨x, post', y, v', rfl, rfl, hne⟩ := stops_iff.1 hstop
          rw [if_pos hstop, countsMin_nil]
          constructor
          · intro hdisj
            refine ⟨?_, nothingLost_of_disjoint hdisj⟩
            intro x₁ post₁ u₁ y₁ v₁ hrest hhigh hu₁ _
            obtain ⟨rfl, hv⟩ := Lines.first_cut_unique hhigh hu hu₁
            rw [← hrest, hv]
            exact hdisj
          · intro h
            exact h.1 x post' u y v' rfl rfl hu hne
        · rw [if_neg hstop, ih]
          refine (and_iff_right ?_).symm
          intro x post' u₁ y v₁ hrest hhigh hu₁ hne
          obtain ⟨-, hv⟩ := Lines.first_cut_unique hhigh hu hu₁
          exact absurd (stops_iff.2 ⟨x, post', y, v₁, hrest, hv.symm, hne⟩) hstop
      · rw [found, if_neg hl, countsMin_of_not_mem hl, ih, List.erase_of_not_mem hl]
        refine (and_iff_right ?_).symm
        intro x post' u y v _ hhigh
        exact absurd (by rw [hhigh]; simp) hl

/-- **The fast intersection.**  On two slices that share no element, `intersection` has every value
exactly as often as both arguments have it, if and only if no early stop leaves a common value
behind. -/
theorem intersection_counts_iff (mem : Memory ℤ) (a b : Window) (hapart : a.Apart b) :
    (∀ x, (intersection mem a b).count x = min ((a.elems mem).count x) ((b.elems mem).count x)) ↔
      NothingLost ((lowOf a b).elems mem) ((highOf a b).elems mem) := by
  rw [← countsMin_found_iff, ← intersection_eq hapart]
  refine forall_congr' fun x => ?_
  unfold lowOf highOf
  split
  · rw [min_comm]
  · rfl

/-- A memory that holds a list from address 0 on. -/
def memoryOf (xs : List ℤ) : Memory ℤ := fun a => xs.getD a 0

/-- A list that goes on like the shorter one: nothing is lost. -/
theorem intersection_counts_iff_same_order :
    (⟨0, 2⟩ : Window).Apart ⟨2, 3⟩ ∧
      intersection (memoryOf [1, 2, 1, 2, 3]) ⟨0, 2⟩ ⟨2, 3⟩ = [1, 2] ∧
      NothingLost [1, 2] [1, 2, 3] := by
  have hapart : (⟨0, 2⟩ : Window).Apart ⟨2, 3⟩ := by
    rintro a ⟨-, hlt⟩ ⟨hle, -⟩
    simp only at hlt hle
    omega
  have hinter : intersection (memoryOf [1, 2, 1, 2, 3]) ⟨0, 2⟩ ⟨2, 3⟩ = [1, 2] := by decide +kernel
  refine ⟨hapart, hinter, (intersection_counts_iff (memoryOf [1, 2, 1, 2, 3]) ⟨0, 2⟩ ⟨2, 3⟩
    hapart).1 fun x => ?_⟩
  have hlow : (⟨0, 2⟩ : Window).elems (memoryOf [1, 2, 1, 2, 3]) = [1, 2] := by decide +kernel
  have hhigh : (⟨2, 3⟩ : Window).elems (memoryOf [1, 2, 1, 2, 3]) = [1, 2, 3] := by decide +kernel
  rw [hinter, hlow, hhigh]
  simp only [List.count_cons, List.count_nil]
  omega

/-- The common values of `[1, 2, 3]` and `[1, 3, 2]` are three, and one is found: after the
match at 1 the lists go on with 2 and 3. -/
theorem intersection_stops_early :
    let mem := memoryOf [1, 2, 3, 1, 3, 2]
    (⟨0, 3⟩ : Window).Apart ⟨3, 3⟩ ∧ intersection mem ⟨0, 3⟩ ⟨3, 3⟩ = [1] ∧
      ¬ ∀ x, (intersection mem ⟨0, 3⟩ ⟨3, 3⟩).count x =
        min (((⟨0, 3⟩ : Window).elems mem).count x) (((⟨3, 3⟩ : Window).elems mem).count x) := by
  refine ⟨?_, by decide +kernel, fun h => ?_⟩
  · rintro a ⟨-, hlt⟩ ⟨hle, -⟩
    simp only at hlt hle
    omega
  · exact absurd (h 2) (by decide +kernel)

-- A slice with itself: nothing stops early, but the removal of 1 has moved 3 to where 2 was before
-- the loop comes there.
example : intersection (memoryOf [1, 2, 3]) ⟨0, 3⟩ ⟨0, 3⟩ = [1, 3] := by decide +kernel

end ListIntersect
