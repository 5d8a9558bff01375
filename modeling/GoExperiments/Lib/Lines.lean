import Mathlib.Data.List.Basic

/-!
# Text in delimited pieces

A file of lines is a list cut at a separator by `List.splitOn`.  The pieces that a
separator ends are *complete*; what follows the last separator is *pending*, the place
where the next write continues.

* `splitOn_append` — writing at the end leaves the complete pieces alone and continues the
  pending one.
* `complete_append_piece` — writing a piece with its separator completes it, glued to
  what was pending.
* `prefix_complete_append` — no write at the end takes away a complete piece.
* `first_cut_unique` — a list is cut at its first separator in one way.
-/

namespace Lines

variable {α : Type*} [BEq α] {a : α}

/-- The pieces ended by a separator. -/
def complete (a : α) (xs : List α) : List (List α) := (xs.splitOn a).dropLast

/-- What follows the last separator. -/
def pending (a : α) (xs : List α) : List α := (xs.splitOn a).getLastD []

@[simp] theorem complete_nil (a : α) : complete a [] = [] := by
  simp [complete]

@[simp] theorem pending_nil (a : α) : pending a [] = [] := by
  simp [pending]

theorem splitOn_eq (a : α) (xs : List α) : xs.splitOn a = complete a xs ++ [pending a xs] := by
  have hne := List.splitOn_ne_nil a xs
  unfold complete pending
  rw [List.getLastD_eq_getLast?, List.getLast?_eq_some_getLast hne, Option.getD_some,
    List.dropLast_append_getLast]

/-- The pieces of a list are known once it is cut. -/
theorem pieces_of_splitOn {xs last : List α} {init : List (List α)}
    (h : xs.splitOn a = init ++ [last]) : complete a xs = init ∧ pending a xs = last := by
  rw [splitOn_eq] at h
  obtain ⟨hinit, hlast⟩ := List.append_inj' h rfl
  exact ⟨hinit, (List.cons.inj hlast).1⟩

variable [LawfulBEq α]

/-- A separator in front is a complete empty piece. -/
theorem splitOn_cons_self (xs : List α) : (a :: xs).splitOn a = [] :: xs.splitOn a := by
  rw [List.splitOn_cons_eq_if_modifyHead]
  simp

theorem splitOn_cons_of_ne {x : α} (h : x ≠ a) (xs : List α) :
    (x :: xs).splitOn a = (xs.splitOn a).modifyHead (x :: ·) := by
  rw [List.splitOn_cons_eq_if_modifyHead]
  simp [h]

/-- **Writing at the end.** -/
theorem splitOn_append (xs ys : List α) :
    (xs ++ ys).splitOn a = complete a xs ++ (ys.splitOn a).modifyHead (pending a xs ++ ·) := by
  induction xs with
  | nil =>
      rw [complete_nil, pending_nil]
      cases hys : ys.splitOn a with
      | nil => simp [hys]
      | cons p ps => simp [hys]
  | cons x xs ih =>
      have hxs := splitOn_eq a xs
      by_cases hx : x = a
      · subst hx
        have hcut : (x :: xs).splitOn x = ([] :: complete x xs) ++ [pending x xs] := by
          rw [splitOn_cons_self, hxs]
          rfl
        obtain ⟨hcomplete, hpending⟩ := pieces_of_splitOn hcut
        rw [List.cons_append, splitOn_cons_self, ih, hcomplete, hpending]
        rfl
      · rw [List.cons_append, splitOn_cons_of_ne hx, ih]
        have hcut := splitOn_cons_of_ne hx xs
        rw [hxs] at hcut
        -- the first piece gets longer: a complete one, or else the pending one
        cases hinit : complete a xs with
        | nil =>
            rw [hinit] at hcut
            obtain ⟨hcomplete, hpending⟩ :=
              @pieces_of_splitOn _ _ a (x :: xs) (x :: pending a xs) [] hcut
            rw [hcomplete, hpending]
            cases ys.splitOn a <;> rfl
        | cons p ps =>
            rw [hinit] at hcut
            obtain ⟨hcomplete, hpending⟩ :=
              @pieces_of_splitOn _ _ a (x :: xs) (pending a xs) ((x :: p) :: ps) hcut
            rw [hcomplete, hpending]
            rfl

/-- Without a separator, the write only continues the pending piece. -/
theorem complete_append_of_not_mem {ys : List α} (h : a ∉ ys) (xs : List α) :
    complete a (xs ++ ys) = complete a xs := by
  unfold complete
  rw [splitOn_append, List.splitOn_eq_singleton h]
  simp [complete]

/-- **A piece and its separator.** -/
theorem complete_append_piece {ys : List α} (h : a ∉ ys) (xs : List α) :
    complete a (xs ++ (ys ++ [a])) = complete a xs ++ [pending a xs ++ ys] := by
  unfold complete
  rw [splitOn_append, List.splitOn_append_cons_self_of_not_mem h, List.splitOn_nil]
  simp [complete]

theorem pending_append_piece {ys : List α} (h : a ∉ ys) (xs : List α) :
    pending a (xs ++ (ys ++ [a])) = [] := by
  unfold pending
  rw [splitOn_append, List.splitOn_append_cons_self_of_not_mem h, List.splitOn_nil]
  simp

/-- **Nothing complete is lost by a write at the end.** -/
theorem prefix_complete_append (xs ys : List α) : complete a xs <+: complete a (xs ++ ys) := by
  unfold complete
  rw [splitOn_append]
  cases hys : ys.splitOn a with
  | nil => exact absurd hys (List.splitOn_ne_nil a ys)
  | cons p ps =>
      rw [List.modifyHead_cons, List.dropLast_append_of_ne_nil (List.cons_ne_nil _ _)]
      exact List.prefix_append _ _

/-- The last piece, when the list ends in a separator and a piece. -/
theorem splitOn_append_piece {ys : List α} (h : a ∉ ys) (xs : List α) :
    (xs ++ a :: ys).splitOn a = xs.splitOn a ++ [ys] := by
  rw [List.splitOn_append_cons_self, List.splitOn_eq_singleton h]

omit [BEq α] [LawfulBEq α] in
/-- There is one first separator. -/
theorem first_cut_unique {u u' v v' : List α} (h : u ++ a :: v = u' ++ a :: v') (hu : a ∉ u)
    (hu' : a ∉ u') : u' = u ∧ v' = v := by
  induction u generalizing u' with
  | nil =>
      cases u' with
      | nil => exact ⟨rfl, (List.cons.inj h).2.symm⟩
      | cons x u' =>
          obtain ⟨rfl, -⟩ := List.cons.inj h
          exact absurd (List.mem_cons_self ..) hu'
  | cons x u ih =>
      cases u' with
      | nil =>
          obtain ⟨rfl, -⟩ := List.cons.inj h
          exact absurd (List.mem_cons_self ..) hu
      | cons y u' =>
          obtain ⟨rfl, hrest⟩ := List.cons.inj h
          obtain ⟨rfl, rfl⟩ := ih hrest (fun hmem => hu (List.mem_cons_of_mem _ hmem))
            fun hmem => hu' (List.mem_cons_of_mem _ hmem)
          exact ⟨rfl, rfl⟩

omit [BEq α] [LawfulBEq α] in
/-- A separator behind a text without it leaves that text in front of the cut. -/
theorem cut_after {p w u v : List α} (h : p ++ w = u ++ a :: v) (hp : a ∉ p) :
    ∃ t, u = p ++ t ∧ w = t ++ a :: v := by
  induction p generalizing u with
  | nil => exact ⟨u, rfl, h⟩
  | cons x p ih =>
      cases u with
      | nil =>
          obtain ⟨rfl, -⟩ := List.cons.inj h
          exact absurd (List.mem_cons_self ..) hp
      | cons y u =>
          obtain ⟨rfl, hrest⟩ := List.cons.inj h
          obtain ⟨t, rfl, hw⟩ := ih hrest fun hmem => hp (List.mem_cons_of_mem _ hmem)
          exact ⟨t, rfl, hw⟩

end Lines
