import Mathlib.Data.List.Nodup

/-!
# Doubly linked lists

Nodes of a list are addresses, and each of them has links to the node before it and the node
after it; the address `0` is no node.  The links are given by a function, so that this file does
not depend on where they are kept.

* `Seg links before as after` — the links of `as` run from `before` to `after`.
* `IsList links head as` — from `head` on, the links run through `as`.
* `push`, `unlink` — the links after a node was put in front, and after one was taken out, whatever
  its place; `IsList.push` and `IsList.unlink` say which lists they make.
* `IsList.congr` — a list does not depend on the links of other nodes.
-/

namespace LinkedList

variable {α : Type} [Zero α]

/-- The neighbours of a node. -/
structure Links (α : Type) where
  prev : α
  next : α
  deriving DecidableEq

/-- The links of `as` run from `before` to `after`. -/
def Seg (links : α → Option (Links α)) : α → List α → α → Prop
  | _, [], _ => True
  | before, a :: as, after => links a = some ⟨before, as.headD after⟩ ∧ Seg links a as after

structure IsList (links : α → Option (Links α)) (head : α) (as : List α) : Prop where
  head_eq : head = as.headD 0
  seg : Seg links 0 as 0
  nodup : as.Nodup
  ne_zero : ∀ a ∈ as, a ≠ 0

variable {links links' : α → Option (Links α)} {head : α} {as pre post : List α} {a : α}

theorem isList_nil (links : α → Option (Links α)) : IsList links 0 [] :=
  ⟨rfl, trivial, List.nodup_nil, fun _ h => absurd h List.not_mem_nil⟩

omit [Zero α] in
theorem Seg.congr {before after : α} (h : Seg links before as after)
    (hsame : ∀ b ∈ as, links' b = links b) : Seg links' before as after := by
  induction as generalizing before with
  | nil => trivial
  | cons b as ih =>
      refine ⟨(hsame b List.mem_cons_self).trans h.1, ih h.2 fun c hc => ?_⟩
      exact hsame c (List.mem_cons_of_mem _ hc)

omit [Zero α] in
theorem seg_append {before after : α} {cs : List α} :
    Seg links before (as ++ cs) after ↔
      Seg links before as (cs.headD after) ∧ Seg links (as.getLastD before) cs after := by
  induction as generalizing before with
  | nil => simp [Seg]
  | cons b as ih =>
      have hhead : (as ++ cs).headD after = as.headD (cs.headD after) := by cases as <;> rfl
      rw [List.cons_append, Seg, Seg, ih, hhead, and_assoc, List.getLastD_cons]

/-- The links of the other nodes do not matter. -/
theorem IsList.congr (h : IsList links head as) (hsame : ∀ b ∈ as, links' b = links b) :
    IsList links' head as :=
  ⟨h.head_eq, h.seg.congr hsame, h.nodup, h.ne_zero⟩

theorem IsList.eq_cons (h : IsList links head as) (hne : head ≠ 0) :
    ∃ rest, as = head :: rest := by
  cases as with
  | nil => exact absurd h.head_eq hne
  | cons b rest => exact ⟨rest, by rw [h.head_eq]; rfl⟩

/-- The links of a node. -/
theorem IsList.links_eq (h : IsList links head (pre ++ a :: post)) :
    links a = some ⟨pre.getLastD 0, post.headD 0⟩ :=
  (seg_append.1 h.seg).2.1

/-- The links of a node lead to nodes of its list. -/
theorem IsList.links_mem {l : Links α} (h : IsList links head as) (ha : a ∈ as)
    (hl : links a = some l) : (l.prev ≠ 0 → l.prev ∈ as) ∧ (l.next ≠ 0 → l.next ∈ as) := by
  obtain ⟨pre, post, rfl⟩ := List.append_of_mem ha
  rw [h.links_eq, Option.some.injEq] at hl
  subst hl
  constructor
  · intro hne
    obtain rfl | ⟨pre, b, rfl⟩ := List.eq_nil_or_concat pre
    · exact absurd rfl hne
    · simp
  · intro hne
    cases post with
    | nil => exact absurd rfl hne
    | cons b post => simp

/-- No node is in front of itself. -/
theorem IsList.prev_ne {l : Links α} (h : IsList links head as) (ha : a ∈ as)
    (hl : links a = some l) (hne : l.prev ≠ 0) : a ≠ l.prev := by
  obtain ⟨pre, post, rfl⟩ := List.append_of_mem ha
  rw [h.links_eq, Option.some.injEq] at hl
  subst hl
  obtain rfl | ⟨pre, b, rfl⟩ := List.eq_nil_or_concat pre
  · exact absurd rfl hne
  · have hdisj := (List.nodup_append.1 h.nodup).2.2 b (by simp) a List.mem_cons_self
    simpa using Ne.symm hdisj

/-! ## Setting a link -/

variable [DecidableEq α]

def setPrev (links : α → Option (Links α)) (b v : α) : α → Option (Links α) :=
  fun x => if x = b then (links x).map fun l => { l with prev := v } else links x

def setNext (links : α → Option (Links α)) (b v : α) : α → Option (Links α) :=
  fun x => if x = b then (links x).map fun l => { l with next := v } else links x

omit [Zero α] in
theorem setPrev_of_ne {b v x : α} (h : x ≠ b) : setPrev links b v x = links x := if_neg h

omit [Zero α] in
theorem setNext_of_ne {b v x : α} (h : x ≠ b) : setNext links b v x = links x := if_neg h

omit [Zero α] in
theorem setPrev_self {b v : α} {l : Links α} (h : links b = some l) :
    setPrev links b v b = some ⟨v, l.next⟩ := by
  rw [setPrev, if_pos rfl, h]
  rfl

omit [Zero α] in
theorem setNext_self {b v : α} {l : Links α} (h : links b = some l) :
    setNext links b v b = some ⟨l.prev, v⟩ := by
  rw [setNext, if_pos rfl, h]
  rfl

/-! ## A node in front -/

/-- The links with `l` as those of `a`. -/
def place (links : α → Option (Links α)) (a : α) (l : Links α) : α → Option (Links α) :=
  fun x => if x = a then some l else links x

omit [Zero α] in
theorem place_self (a : α) (l : Links α) : place links a l a = some l := if_pos rfl

omit [Zero α] in
theorem place_of_ne {x : α} (l : Links α) (h : x ≠ a) : place links a l x = links x := if_neg h

/-- The links after `a` was put in front of `head`. -/
def push (links : α → Option (Links α)) (head a : α) : α → Option (Links α) :=
  if head = 0 then place links a ⟨0, head⟩ else setPrev (place links a ⟨0, head⟩) head a

theorem IsList.push (h : IsList links head as) (hne : a ≠ 0) (hnew : a ∉ as) :
    IsList (push links head a) a (a :: as) := by
  refine ⟨rfl, ?_, List.nodup_cons.2 ⟨hnew, h.nodup⟩, ?_⟩
  · unfold LinkedList.push
    cases as with
    | nil =>
        have hhead : head = 0 := h.head_eq
        rw [if_pos hhead, hhead]
        exact ⟨place_self a _, trivial⟩
    | cons c as =>
        have hhead : head = c := h.head_eq
        have hc : c ≠ 0 := h.ne_zero c List.mem_cons_self
        have hca : c ≠ a := fun heq => hnew (heq ▸ List.mem_cons_self)
        rw [hhead, if_neg hc]
        obtain ⟨hlinks, hseg⟩ := h.seg
        refine ⟨?_, ?_, hseg.congr fun b hb => ?_⟩
        · rw [setPrev_of_ne (Ne.symm hca)]
          exact place_self a _
        · have hplace : place links a ⟨0, c⟩ c = some ⟨0, as.headD 0⟩ := by
            rw [place_of_ne _ hca, hlinks]
          exact setPrev_self hplace
        · have hbc : b ≠ c := fun heq => (List.nodup_cons.1 h.nodup).1 (heq ▸ hb)
          have hba : b ≠ a := fun heq => hnew (heq ▸ List.mem_cons_of_mem _ hb)
          rw [setPrev_of_ne hbc, place_of_ne _ hba]
  · intro b hb
    obtain rfl | hb := List.mem_cons.1 hb
    · exact hne
    · exact h.ne_zero b hb

/-! ## A node taken out -/

/-- The links after the node with the neighbours `l` was taken out. -/
def unlink (links : α → Option (Links α)) (l : Links α) : α → Option (Links α) :=
  if l.prev = 0 then
    if l.next = 0 then links else setPrev links l.next 0
  else if l.next = 0 then setNext links l.prev 0
  else setPrev (setNext links l.prev l.next) l.next l.prev

/-- The first node after that. -/
def unlinkHead (head : α) (l : Links α) : α := if l.prev = 0 then l.next else head

/-- The first node is taken out. -/
theorem IsList.unlink_first (h : IsList links head (a :: post)) :
    IsList (unlink links ⟨0, post.headD 0⟩) (post.headD 0) post := by
  have hpost := List.nodup_cons.1 h.nodup
  have hne : ∀ b ∈ post, b ≠ 0 := fun b hb => h.ne_zero b (List.mem_cons_of_mem _ hb)
  refine ⟨rfl, ?_, hpost.2, hne⟩
  cases post with
  | nil => trivial
  | cons c post =>
      have hc : c ≠ 0 := hne c List.mem_cons_self
      obtain ⟨-, hlinks, hseg⟩ := h.seg
      have hunlink : LinkedList.unlink links ⟨0, (c :: post).headD 0⟩ = setPrev links c 0 := by
        unfold LinkedList.unlink
        rw [if_pos rfl]
        exact if_neg hc
      rw [hunlink]
      refine ⟨setPrev_self hlinks, hseg.congr fun b hb => setPrev_of_ne ?_⟩
      exact fun heq => (List.nodup_cons.1 hpost.2).1 (heq ▸ hb)

/-- A node behind another one is taken out. -/
theorem IsList.unlink_later {b : α} (h : IsList links head (pre ++ b :: a :: post)) :
    IsList (unlink links ⟨b, post.headD 0⟩) head (pre ++ b :: post) := by
  obtain ⟨hseg, hlinksb, hlinksa, hpost⟩ := seg_append.1 h.seg
  have hnd := h.nodup
  rw [List.nodup_append, List.nodup_cons, List.nodup_cons] at hnd
  obtain ⟨hndpre, ⟨hb, ha, hndpost⟩, hdisj⟩ := hnd
  have hmem : ∀ x ∈ pre ++ b :: post, x ∈ pre ++ b :: a :: post := by
    intro x hx
    rw [List.mem_append, List.mem_cons] at hx ⊢
    obtain hx | rfl | hx := hx
    · exact .inl hx
    · exact .inr (.inl rfl)
    · exact .inr (.inr (List.mem_cons_of_mem _ hx))
  have hbne : b ≠ 0 := h.ne_zero b (by simp)
  have hbpost : b ∉ post := fun hx => hb (List.mem_cons_of_mem _ hx)
  have hpreb : ∀ x ∈ pre, x ≠ b := fun x hx => hdisj x hx b List.mem_cons_self
  have hprepost : ∀ x ∈ pre, ∀ y ∈ post, x ≠ y := fun x hx y hy =>
    hdisj x hx y (List.mem_cons_of_mem _ (List.mem_cons_of_mem _ hy))
  refine ⟨?_, ?_, ?_, fun x hx => h.ne_zero x (hmem x hx)⟩
  · rw [h.head_eq]
    cases pre <;> rfl
  · rw [seg_append]
    cases post with
    | nil =>
        have hunlink : LinkedList.unlink links ⟨b, ([] : List α).headD 0⟩ = setNext links b 0 := by
          unfold LinkedList.unlink
          rw [if_neg hbne]
          exact if_pos rfl
        rw [hunlink]
        refine ⟨hseg.congr fun x hx => setNext_of_ne (hpreb x hx), setNext_self hlinksb, trivial⟩
    | cons c post =>
        have hcne : c ≠ 0 := h.ne_zero c (by simp)
        have hcb : c ≠ b := fun heq => hbpost (heq ▸ List.mem_cons_self)
        have hunlink : LinkedList.unlink links ⟨b, (c :: post).headD 0⟩ =
            setPrev (setNext links b c) c b := by
          unfold LinkedList.unlink
          rw [if_neg hbne]
          exact if_neg hcne
        rw [hunlink]
        obtain ⟨hlinksc, hrest⟩ := hpost
        refine ⟨hseg.congr fun x hx => ?_, ?_, ?_, hrest.congr fun x hx => ?_⟩
        · rw [setPrev_of_ne (hprepost x hx c List.mem_cons_self), setNext_of_ne (hpreb x hx)]
        · rw [setPrev_of_ne (Ne.symm hcb)]
          exact setNext_self hlinksb
        · have hnext : setNext links b c c = some ⟨a, post.headD 0⟩ := by
            rw [setNext_of_ne hcb, hlinksc]
          exact setPrev_self hnext
        · have hxc : x ≠ c := fun heq => (List.nodup_cons.1 hndpost).1 (heq ▸ hx)
          have hxb : x ≠ b := fun heq => hbpost (heq ▸ List.mem_cons_of_mem _ hx)
          rw [setPrev_of_ne hxc, setNext_of_ne hxb]
  · rw [List.nodup_append, List.nodup_cons]
    refine ⟨hndpre, ⟨hbpost, hndpost⟩, fun x hx y hy => ?_⟩
    obtain rfl | hy := List.mem_cons.1 hy
    · exact hpreb x hx
    · exact hprepost x hx y hy

/-- **A node is taken out**, wherever it is. -/
theorem IsList.unlink {l : Links α} (h : IsList links head (pre ++ a :: post))
    (hl : links a = some l) :
    IsList (unlink links l) (unlinkHead head l) (pre ++ post) := by
  rw [h.links_eq, Option.some.injEq] at hl
  subst hl
  obtain rfl | ⟨pre, b, rfl⟩ := List.eq_nil_or_concat pre
  · have hhead : unlinkHead head (⟨([] : List α).getLastD 0, post.headD 0⟩ : Links α) =
        post.headD 0 := if_pos rfl
    rw [hhead]
    exact h.unlink_first
  · rw [List.concat_eq_append, List.append_assoc, List.singleton_append] at h
    have hbne : b ≠ 0 := h.ne_zero b (by simp)
    have hlast : (pre.concat b).getLastD 0 = b := by simp
    have hhead : unlinkHead head (⟨(pre.concat b).getLastD 0, post.headD 0⟩ : Links α) = head := by
      rw [hlast]
      exact if_neg hbne
    rw [hhead, hlast, List.concat_eq_append, List.append_assoc, List.singleton_append]
    exact h.unlink_later

end LinkedList
