import GoExperiments.Lib.Lines
import Mathlib.Data.List.TakeWhile

/-!
# Paths as Go's `path/filepath` cleans and joins them

On Unix, `Clean` goes through the elements of a path: empty ones and `.` are dropped, and `..`
takes away the element before it, if there is one that can be taken away.

* `clean`, `join` — `filepath.Clean` and `filepath.Join`.
* `mem_join` — joining brings in no bytes but dots and slashes.
* `clean_eq_self` — a rooted path of ordinary elements is clean.
* `join_ordinary`, `join_dot` — what a clean rooted directory and one element are joined to.
-/

namespace GoPath

def slash : UInt8 := 0x2F

/-- The element `.` -/
def dot : List UInt8 := [0x2E]

/-- The element `..` -/
def dotdot : List UInt8 := [0x2E, 0x2E]

def rooted (path : List UInt8) : Bool := path.head? == some slash

/-- One element; the stack has the last element kept so far on top. -/
def push (rooted : Bool) (stack : List (List UInt8)) (p : List UInt8) : List (List UInt8) :=
  if p = [] ∨ p = dot then stack
  else if p = dotdot then
    match stack with
    | [] => if rooted then [] else [dotdot]
    | top :: rest => if top = dotdot then dotdot :: top :: rest else rest
  else p :: stack

/-- The elements that are left. -/
def elements (path : List UInt8) : List (List UInt8) :=
  ((path.splitOn slash).foldl (push (rooted path)) []).reverse

/-- `filepath.Clean`. -/
def clean (path : List UInt8) : List UInt8 :=
  if rooted path then slash :: [slash].intercalate (elements path)
  else if elements path = [] then dot
  else [slash].intercalate (elements path)

/-- `filepath.Join`: the elements in front of the first one that is not empty are ignored. -/
def join (elems : List (List UInt8)) : List UInt8 :=
  match elems.dropWhile (· == []) with
  | [] => []
  | elem :: rest => clean ([slash].intercalate (elem :: rest))

/-! ## The bytes of a path -/

theorem mem_intercalate {s : UInt8} {ls : List (List UInt8)} {b : UInt8}
    (h : b ∈ [s].intercalate ls) : b = s ∨ ∃ l ∈ ls, b ∈ l := by
  induction ls with
  | nil => exact absurd h (by simp [List.intercalate])
  | cons l ls ih =>
      cases ls with
      | nil => exact .inr ⟨l, List.mem_cons_self, by simpa [List.intercalate] using h⟩
      | cons l' ls =>
          rw [List.intercalate_cons_cons] at h
          simp only [List.mem_append, List.mem_singleton] at h
          obtain (h | rfl) | h := h
          · exact .inr ⟨l, List.mem_cons_self, h⟩
          · exact .inl rfl
          · obtain rfl | ⟨q, hq, hb⟩ := ih h
            · exact .inl rfl
            · exact .inr ⟨q, List.mem_cons_of_mem _ hq, hb⟩

theorem mem_intercalate_of_mem {s : UInt8} {ls : List (List UInt8)} {l : List UInt8} {b : UInt8}
    (hl : l ∈ ls) (hb : b ∈ l) : b ∈ [s].intercalate ls := by
  induction ls with
  | nil => exact absurd hl List.not_mem_nil
  | cons l₀ ls ih =>
      cases ls with
      | nil =>
          rw [List.mem_singleton.1 hl] at hb
          simpa [List.intercalate] using hb
      | cons l' ls =>
          rw [List.intercalate_cons_cons]
          obtain rfl | hl := List.mem_cons.1 hl
          · exact List.mem_append_left _ (List.mem_append_left _ hb)
          · exact List.mem_append_right _ (ih hl)

/-- What is on the stack was pushed there, or is `..` -/
theorem mem_push {r : Bool} {stack : List (List UInt8)} {p q : List UInt8}
    (h : q ∈ push r stack p) : q ∈ stack ∨ (q = p ∧ q ≠ []) ∨ q = dotdot := by
  unfold push at h
  by_cases hdrop : p = [] ∨ p = dot
  · rw [if_pos hdrop] at h
    exact .inl h
  rw [if_neg hdrop] at h
  by_cases hdd : p = dotdot
  · rw [if_pos hdd] at h
    cases stack with
    | nil =>
        cases r with
        | true => exact .inl h
        | false => exact .inr (.inr (List.mem_singleton.1 h))
    | cons top rest =>
        simp only at h
        split_ifs at h with htop
        · exact (List.mem_cons.1 h).elim (fun heq => .inr (.inr heq)) .inl
        · exact .inl (List.mem_cons_of_mem _ h)
  · rw [if_neg hdd] at h
    obtain rfl | h := List.mem_cons.1 h
    · exact .inr (.inl ⟨rfl, (not_or.1 hdrop).1⟩)
    · exact .inl h

theorem mem_foldl_push {r : Bool} {ps stack : List (List UInt8)} {q : List UInt8}
    (h : q ∈ ps.foldl (push r) stack) : q ∈ stack ∨ (q ∈ ps ∧ q ≠ []) ∨ q = dotdot := by
  induction ps generalizing stack with
  | nil => exact .inl h
  | cons p ps ih =>
      obtain h | ⟨h, hne⟩ | h := ih h
      · obtain h | ⟨rfl, hne⟩ | h := mem_push h
        · exact .inl h
        · exact .inr (.inl ⟨List.mem_cons_self, hne⟩)
        · exact .inr (.inr h)
      · exact .inr (.inl ⟨List.mem_cons_of_mem _ h, hne⟩)
      · exact .inr (.inr h)

theorem elements_cases {path q : List UInt8} (h : q ∈ elements path) :
    (q ∈ path.splitOn slash ∧ q ≠ []) ∨ q = dotdot :=
  (mem_foldl_push (List.mem_reverse.1 h)).resolve_left List.not_mem_nil

theorem mem_elements {path q : List UInt8} {b : UInt8} (hq : q ∈ elements path) (hb : b ∈ q) :
    b ∈ path ∨ b = 0x2E := by
  obtain ⟨h, -⟩ | rfl := elements_cases hq
  · have hmem : b ∈ [slash].intercalate (path.splitOn slash) := mem_intercalate_of_mem h hb
    rw [List.intercalate_splitOn] at hmem
    exact .inl hmem
  · exact .inr (by simpa [dotdot] using hb)

theorem mem_clean {path : List UInt8} {b : UInt8} (h : b ∈ clean path) :
    b ∈ path ∨ b = 0x2E ∨ b = slash := by
  have hbody : b ∈ [slash].intercalate (elements path) → b ∈ path ∨ b = 0x2E ∨ b = slash := by
    intro hb
    obtain rfl | ⟨q, hq, hb⟩ := mem_intercalate hb
    · exact .inr (.inr rfl)
    · exact (mem_elements hq hb).imp_right .inl
  unfold clean at h
  split_ifs at h with hroot hempty
  · obtain rfl | h := List.mem_cons.1 h
    · exact .inr (.inr rfl)
    · exact hbody h
  · exact .inr (.inl (by simpa [dot] using h))
  · exact hbody h

/-- **Joining brings in dots and slashes only.** -/
theorem mem_join {elems : List (List UInt8)} {b : UInt8} (h : b ∈ join elems) :
    (∃ e ∈ elems, b ∈ e) ∨ b = 0x2E ∨ b = slash := by
  unfold join at h
  split at h
  · exact absurd h List.not_mem_nil
  next elem rest heq =>
    obtain h | h := mem_clean h
    · obtain rfl | ⟨e, he, hb⟩ := mem_intercalate h
      · exact .inr (.inr rfl)
      · rw [← heq] at he
        exact .inl ⟨e, (List.dropWhile_sublist _).subset he, hb⟩
    · exact .inr h

theorem join_cons_of_ne_nil {e : List UInt8} (h : e ≠ []) (es : List (List UInt8)) :
    join (e :: es) = clean ([slash].intercalate (e :: es)) := by
  have hdrop : (e :: es).dropWhile (· == []) = e :: es :=
    List.dropWhile_cons_of_neg (by simpa using h)
  unfold join
  rw [hdrop]

/-! ## Clean paths -/

/-- An element that `Clean` leaves as it is. -/
structure Ordinary (p : List UInt8) : Prop where
  ne_nil : p ≠ []
  ne_dot : p ≠ dot
  ne_dotdot : p ≠ dotdot
  no_slash : slash ∉ p

instance (p : List UInt8) : Decidable (Ordinary p) :=
  decidable_of_iff (p ≠ [] ∧ p ≠ dot ∧ p ≠ dotdot ∧ slash ∉ p)
    ⟨fun ⟨h₁, h₂, h₃, h₄⟩ => ⟨h₁, h₂, h₃, h₄⟩, fun ⟨h₁, h₂, h₃, h₄⟩ => ⟨h₁, h₂, h₃, h₄⟩⟩

theorem push_ordinary {r : Bool} {p : List UInt8} (h : Ordinary p) (stack : List (List UInt8)) :
    push r stack p = p :: stack := by
  unfold push
  rw [if_neg (not_or.2 ⟨h.ne_nil, h.ne_dot⟩), if_neg h.ne_dotdot]

theorem foldl_push_ordinary {r : Bool} {ps : List (List UInt8)} (h : ∀ p ∈ ps, Ordinary p)
    (stack : List (List UInt8)) : ps.foldl (push r) stack = ps.reverse ++ stack := by
  induction ps generalizing stack with
  | nil => rfl
  | cons p ps ih =>
      rw [List.foldl_cons, push_ordinary (h p List.mem_cons_self),
        ih fun q hq => h q (List.mem_cons_of_mem _ hq)]
      simp

/-- **Rooted paths of ordinary elements are clean.** -/
theorem clean_eq_self {ps : List (List UInt8)} (h : ∀ p ∈ ps, Ordinary p) (hne : ps ≠ []) :
    clean (slash :: [slash].intercalate ps) = slash :: [slash].intercalate ps := by
  have hroot : rooted (slash :: [slash].intercalate ps) = true := rfl
  have hsplit : (slash :: [slash].intercalate ps).splitOn slash = [] :: ps := by
    rw [Lines.splitOn_cons_self, List.splitOn_intercalate _ (fun p hp => (h p hp).no_slash) hne]
  have helems : elements (slash :: [slash].intercalate ps) = ps := by
    rw [elements, hsplit, List.foldl_cons, hroot]
    change (ps.foldl (push true) []).reverse = ps
    rw [foldl_push_ordinary h, List.append_nil, List.reverse_reverse]
  rw [clean, if_pos hroot, helems]

/-! ## The entries of a directory -/

/-- The path of the entry `name` of the directory `dir`. -/
def entry (dir name : List UInt8) : List UInt8 :=
  if dir = [slash] then slash :: name else dir ++ slash :: name

theorem clean_of_rooted {path : List UInt8} (hroot : rooted path = true) :
    clean path = slash :: [slash].intercalate (elements path) :=
  if_pos hroot

theorem rooted_append {dir : List UInt8} (hroot : rooted dir = true) (p : List UInt8) :
    rooted (dir ++ p) = true := by
  cases dir with
  | nil => exact absurd hroot (by decide)
  | cons b dir => exact hroot

/-- One element more. -/
theorem elements_append {dir p : List UInt8} (hroot : rooted dir = true) (hp : slash ∉ p) :
    elements (dir ++ slash :: p) = (push true (elements dir).reverse p).reverse := by
  rw [elements, elements, rooted_append hroot, hroot, Lines.splitOn_append_piece hp,
    List.foldl_append, List.reverse_reverse]
  rfl

theorem join_pair {dir : List UInt8} (hroot : rooted dir = true) (name : List UInt8) :
    join [dir, name] = clean (dir ++ slash :: name) := by
  have hne : dir ≠ [] := by
    rintro rfl
    exact absurd hroot (by decide)
  rw [join_cons_of_ne_nil hne, List.intercalate_cons_cons, List.intercalate_singleton,
    List.append_assoc, List.singleton_append]

theorem intercalate_concat {s : UInt8} {ls : List (List UInt8)} (hne : ls ≠ []) (l : List UInt8) :
    [s].intercalate (ls ++ [l]) = [s].intercalate ls ++ s :: l := by
  induction ls with
  | nil => exact absurd rfl hne
  | cons l₀ ls ih =>
      cases ls with
      | nil => simp [List.intercalate_cons_cons]
      | cons l' ls =>
          have hrest := ih (List.cons_ne_nil _ _)
          simp only [List.cons_append] at hrest ⊢
          rw [List.intercalate_cons_cons, List.intercalate_cons_cons, hrest]
          simp

/-- **Joining a clean directory with an ordinary name gives that entry of the directory.** -/
theorem join_ordinary {dir name : List UInt8} (hroot : rooted dir = true) (hclean : clean dir = dir)
    (hname : Ordinary name) : join [dir, name] = entry dir name := by
  have helems : elements (dir ++ slash :: name) = elements dir ++ [name] := by
    rw [elements_append hroot hname.no_slash, push_ordinary hname, List.reverse_cons,
      List.reverse_reverse]
  have hdir := clean_of_rooted hroot
  rw [hclean] at hdir
  rw [join_pair hroot, clean_of_rooted (rooted_append hroot _), helems, entry]
  split_ifs with hslash
  · have hnil : elements dir = [] := by
      rw [hslash]
      decide
    rw [hnil, List.nil_append, List.intercalate_singleton]
  · have hne : elements dir ≠ [] := by
      intro hnil
      rw [hnil] at hdir
      exact hslash hdir
    rw [intercalate_concat hne, ← List.cons_append, ← hdir]

/-- Joining with `.` gives the directory itself. -/
theorem join_dot {dir : List UInt8} (hroot : rooted dir = true) (hclean : clean dir = dir) :
    join [dir, dot] = dir := by
  have helems : elements (dir ++ slash :: dot) = elements dir := by
    have hpush : push true (elements dir).reverse dot = (elements dir).reverse := if_pos (.inr rfl)
    rw [elements_append hroot (by decide), hpush, List.reverse_reverse]
  rw [join_pair hroot, clean_of_rooted (rooted_append hroot _), helems, ← clean_of_rooted hroot,
    hclean]

end GoPath
