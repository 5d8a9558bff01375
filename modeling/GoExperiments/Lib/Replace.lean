import Mathlib.Data.List.Basic
import Mathlib.Data.List.Infix
import Mathlib.Algebra.BigOperators.Group.List.Basic
import Mathlib.Algebra.GroupWithZero.Nat

/-!
# Replacing parts of a text

A text is scanned from left to right.  At each place the first rule whose old text stands
there is applied and the scan goes on behind it; where no rule applies one letter is kept.

* `Rule` — an old text, never empty, and a new one.
* `cut` — the scan: the text cut into kept letters and replaced parts (`Piece`).
* `replace` — the text with the new parts.
* `cut_induction` — the induction along the scan.
* `replace_eq_self`, `not_infix_of_cut` — a text without old parts is left alone, and where no
  part was replaced there was none.
* `count_cut` — how often a letter occurs before and after.
-/

namespace Replace

variable {α : Type*} [DecidableEq α]

/-- What is replaced, and by what. -/
structure Rule (α : Type*) where
  old : List α
  new : List α
  old_ne : old ≠ []
deriving DecidableEq

/-- A part of a scanned text. -/
inductive Piece (α : Type*)
  | keep (c : α)
  | sub (r : Rule α)
deriving DecidableEq

/-- What stood in the text. -/
def Piece.before : Piece α → List α
  | .keep c => [c]
  | .sub r => r.old

/-- What is put in its place. -/
def Piece.after : Piece α → List α
  | .keep c => [c]
  | .sub r => r.new

/-- The first rule whose old text stands at the beginning. -/
def firstRule (rules : List (Rule α)) (s : List α) : Option (Rule α) :=
  rules.find? fun r => r.old.isPrefixOf s

/-- The scan; the first `skip` letters belong to a part already replaced. -/
def cutFrom (rules : List (Rule α)) : ℕ → List α → List (Piece α)
  | _, [] => []
  | skip + 1, _ :: cs => cutFrom rules skip cs
  | 0, c :: cs => match firstRule rules (c :: cs) with
      | some r => .sub r :: cutFrom rules (r.old.length - 1) cs
      | none => .keep c :: cutFrom rules 0 cs

/-- The text cut into its parts. -/
def cut (rules : List (Rule α)) (s : List α) : List (Piece α) := cutFrom rules 0 s

/-- The text after all replacements. -/
def replace (rules : List (Rule α)) (s : List α) : List α := (cut rules s).flatMap Piece.after

/-! ## The scan, step by step -/

variable {rules : List (Rule α)}

theorem firstRule_eq_none {s : List α} :
    firstRule rules s = none ↔ ∀ r ∈ rules, ¬ r.old <+: s := by
  simp [firstRule, List.find?_eq_none]

theorem mem_of_firstRule {s : List α} {r : Rule α} (h : firstRule rules s = some r) : r ∈ rules :=
  List.mem_of_find?_eq_some h

theorem prefix_of_firstRule {s : List α} {r : Rule α} (h : firstRule rules s = some r) :
    r.old <+: s := by
  have hfires := List.find?_some h
  exact List.isPrefixOf_iff_prefix.1 hfires

theorem cutFrom_length (xs t : List α) : cutFrom rules xs.length (xs ++ t) = cut rules t := by
  induction xs with
  | nil => rfl
  | cons x xs ih =>
      rw [List.length_cons, List.cons_append, cutFrom]
      exact ih

theorem cut_keep {c : α} {cs : List α} (h : firstRule rules (c :: cs) = none) :
    cut rules (c :: cs) = .keep c :: cut rules cs := by
  rw [cut, cutFrom, h]
  rfl

theorem cut_sub {r : Rule α} {t : List α} (h : firstRule rules (r.old ++ t) = some r) :
    cut rules (r.old ++ t) = .sub r :: cut rules t := by
  obtain ⟨c, cs, hold⟩ := List.exists_cons_of_ne_nil r.old_ne
  have hlen : r.old.length - 1 = cs.length := by rw [hold]; rfl
  rw [hold, List.cons_append] at h ⊢
  rw [cut, cutFrom, h]
  simp only [hlen, cutFrom_length]

/-- Induction along the scan. -/
theorem cut_induction (rules : List (Rule α)) {P : List α → Prop} (nil : P [])
    (keep : ∀ c cs, firstRule rules (c :: cs) = none → P cs → P (c :: cs))
    (sub : ∀ r t, firstRule rules (r.old ++ t) = some r → P t → P (r.old ++ t)) (s : List α) :
    P s := by
  induction hn : s.length using Nat.strong_induction_on generalizing s with
  | _ n ih =>
    match s with
    | [] => exact nil
    | c :: cs =>
      cases hfirst : firstRule rules (c :: cs) with
      | none =>
          refine keep c cs hfirst (ih cs.length ?_ cs rfl)
          rw [← hn, List.length_cons]
          omega
      | some r =>
          obtain ⟨t, ht⟩ := prefix_of_firstRule hfirst
          have hpos : 0 < r.old.length := List.length_pos_of_ne_nil r.old_ne
          have hlen := congrArg List.length ht
          rw [List.length_append] at hlen
          rw [← ht] at hfirst ⊢
          exact sub r t hfirst (ih t.length (by omega) t rfl)

theorem replace_keep {c : α} {cs : List α} (h : firstRule rules (c :: cs) = none) :
    replace rules (c :: cs) = c :: replace rules cs := by
  rw [replace, cut_keep h]
  rfl

theorem replace_sub {r : Rule α} {t : List α} (h : firstRule rules (r.old ++ t) = some r) :
    replace rules (r.old ++ t) = r.new ++ replace rules t := by
  rw [replace, cut_sub h]
  rfl

theorem mem_of_sub_mem_cut {s : List α} {r : Rule α} (h : .sub r ∈ cut rules s) : r ∈ rules := by
  induction s using cut_induction rules with
  | nil => cases h
  | keep c cs hc ih =>
      rw [cut_keep hc] at h
      exact ih ((List.mem_cons.1 h).resolve_left (by simp))
  | sub r' t hr' ih =>
      rw [cut_sub hr'] at h
      rcases List.mem_cons.1 h with heq | hmem
      · cases heq
        exact mem_of_firstRule hr'
      · exact ih hmem

/-! ## Texts without old parts -/

theorem replace_eq_self {s : List α} (h : ∀ r ∈ rules, ¬ r.old <:+: s) : replace rules s = s := by
  induction s with
  | nil => rfl
  | cons c cs ih =>
      have hfirst : firstRule rules (c :: cs) = none :=
        firstRule_eq_none.2 fun r hr hpre => h r hr hpre.isInfix
      rw [replace_keep hfirst, ih fun r hr hinf => h r hr (List.infix_cons hinf)]

/-- Letters that begin no old text are passed over. -/
theorem replace_append {xs : List α} (t : List α)
    (h : ∀ r ∈ rules, ∀ c ∈ xs, r.old.head? ≠ some c) :
    replace rules (xs ++ t) = xs ++ replace rules t := by
  induction xs with
  | nil => rfl
  | cons c xs ih =>
      have hfirst : firstRule rules (c :: (xs ++ t)) = none := by
        refine firstRule_eq_none.2 fun r hr hpre => ?_
        obtain ⟨d, ds, hold⟩ := List.exists_cons_of_ne_nil r.old_ne
        rw [hold] at hpre
        have hne := h r hr c (List.mem_cons_self ..)
        rw [hold] at hne
        exact hne (congrArg some (List.cons_prefix_cons.1 hpre).1)
      rw [List.cons_append, replace_keep hfirst,
        ih fun r hr c hc => h r hr c (List.mem_cons_of_mem _ hc)]
      rfl

theorem infix_of_sub_mem_cut {s : List α} {r : Rule α} (h : .sub r ∈ cut rules s) :
    r.old <:+: s := by
  induction s using cut_induction rules with
  | nil => cases h
  | keep c cs hc ih =>
      rw [cut_keep hc] at h
      exact List.infix_cons (ih ((List.mem_cons.1 h).resolve_left (by simp)))
  | sub r' t hr' ih =>
      rw [cut_sub hr'] at h
      rcases List.mem_cons.1 h with heq | hmem
      · cases heq
        exact (List.prefix_append _ _).isInfix
      · exact (ih hmem).trans (List.suffix_append _ _).isInfix

/-- The old text of a rule does not occur where the replaced parts could not begin it. -/
theorem not_infix_of_cut {s : List α} {r : Rule α} (hr : r ∈ rules)
    (h : ∀ r', .sub r' ∈ cut rules s → ∀ c ∈ r'.old, r.old.head? ≠ some c) : ¬ r.old <:+: s := by
  obtain ⟨d, ds, hold⟩ := List.exists_cons_of_ne_nil r.old_ne
  rw [hold] at h ⊢
  induction s using cut_induction rules with
  | nil => simp
  | keep c cs hc ih =>
      rw [cut_keep hc] at h
      rw [List.infix_cons_iff, not_or]
      refine ⟨?_, ih fun r' hr' => h r' (List.mem_cons_of_mem _ hr')⟩
      rw [← hold]
      exact firstRule_eq_none.1 hc r hr
  | sub r' t hr' ih =>
      rw [cut_sub hr'] at h
      have hskip : ∀ xs : List α, (∀ c ∈ xs, d ≠ c) → d :: ds <:+: xs ++ t → d :: ds <:+: t := by
        intro xs
        induction xs with
        | nil => exact fun _ hinf => hinf
        | cons x xs ihx =>
            intro hne hinf
            rcases List.infix_cons_iff.1 hinf with hpre | hinf
            · exact absurd (List.cons_prefix_cons.1 hpre).1 (hne x (List.mem_cons_self ..))
            · exact ihx (fun c hc => hne c (List.mem_cons_of_mem _ hc)) hinf
      intro hinf
      refine ih (fun r₁ hr₁ => h r₁ (List.mem_cons_of_mem _ hr₁)) (hskip r'.old ?_ hinf)
      intro c hc heq
      exact h r' (List.mem_cons_self ..) c hc (congrArg some heq)

/-! ## Counting letters -/

/-- A sum over the replaced parts. -/
def total (w : Rule α → ℕ) (ps : List (Piece α)) : ℕ :=
  (ps.map fun
    | .keep _ => 0
    | .sub r => w r).sum

/-- If every rule loses and gains as much of a letter as given, the text does so for every
part replaced. -/
theorem count_cut (x : α) (gain loss : Rule α → ℕ) (s : List α)
    (h : ∀ r ∈ rules, r.old.count x + gain r = r.new.count x + loss r) :
    s.count x + total gain (cut rules s) =
      (replace rules s).count x + total loss (cut rules s) := by
  induction s using cut_induction rules with
  | nil => rfl
  | keep c cs hc ih =>
      rw [cut_keep hc, replace_keep hc]
      simp only [total, List.map_cons, List.sum_cons, List.count_cons] at ih ⊢
      omega
  | sub r t hr ih =>
      have hrule := h r (mem_of_firstRule hr)
      rw [cut_sub hr, replace_sub hr]
      simp only [total, List.map_cons, List.sum_cons, List.count_append] at ih ⊢
      omega

omit [DecidableEq α] in
theorem total_zero (ps : List (Piece α)) : total (fun _ => 0) ps = 0 := by
  induction ps with
  | nil => rfl
  | cons p ps ih => cases p <;> simpa [total] using ih

theorem total_single (q : Rule α) (k : ℕ) (ps : List (Piece α)) :
    total (fun r => if r = q then k else 0) ps = k * ps.count (.sub q) := by
  induction ps with
  | nil => rfl
  | cons p ps ih =>
      have hcons : total (fun r => if r = q then k else 0) (p :: ps) =
          (if p = .sub q then k else 0) + total (fun r => if r = q then k else 0) ps := by
        cases p <;> simp [total]
      rw [hcons, ih, List.count_cons]
      by_cases hp : p = .sub q
      · simp [hp, Nat.mul_add, Nat.add_comm]
      · simp [hp]

end Replace
