import Mathlib.Algebra.GroupWithZero.Nat
import Mathlib.Data.Set.Insert
import GoExperiments.Lib.ByteMemory
import GoExperiments.Lib.LinkedList

/-!
# Nodes of the free lists

A free slot has its links in its first 16 bytes.  The stores by which the allocator puts a node in
front of a list or takes one out of it (`pushMem`, `unlinkMem`) have on the links that are then
loaded the effect that a doubly linked list needs (`loadNode_pushMem`, `loadNode_unlinkMem`).

`Touches` says where stores went.
-/

namespace Alloc

open ByteMemory

/-! ## What an operation stores -/

/-- The stores between `m` and `m'` are into headers of the pages `headers` and into the links of
the nodes `nodes`. -/
structure Touches (m m' : Mem) (headers nodes : Set ℕ) : Prop where
  isSome_eq : ∀ x, (m' x).isSome = (m x).isSome
  changed : ∀ x, m' x ≠ m x →
    (∃ b ∈ headers, b ≤ x ∧ x < b + 32) ∨ (∃ n ∈ nodes, n ≤ x ∧ x < n + 16)

namespace Touches

variable {m m' m'' : Mem} {headers headers' nodes nodes' : Set ℕ} {a b n v : ℕ}

theorem refl (m : Mem) (headers nodes : Set ℕ) : Touches m m headers nodes :=
  ⟨fun _ => rfl, fun _ hx => absurd rfl hx⟩

theorem trans (h : Touches m m' headers nodes) (h' : Touches m' m'' headers nodes) :
    Touches m m'' headers nodes := by
  refine ⟨fun x => (h'.isSome_eq x).trans (h.isSome_eq x), fun x hx => ?_⟩
  by_cases hx' : m'' x = m' x
  · exact h.changed x fun heq => hx (hx'.trans heq)
  · exact h'.changed x hx'

theorem mono (h : Touches m m' headers nodes) (hheaders : ∀ b ∈ headers, b ∈ headers')
    (hnodes : ∀ n ∈ nodes, n ∈ nodes') : Touches m m' headers' nodes' := by
  refine ⟨h.isSome_eq, fun x hx => ?_⟩
  obtain ⟨b, hb, hxb⟩ | ⟨n, hn, hxn⟩ := h.changed x hx
  · exact .inl ⟨b, hheaders b hb, hxb⟩
  · exact .inr ⟨n, hnodes n hn, hxn⟩

theorem mapped (h : Touches m m' headers nodes) (hm : Mapped m a n) : Mapped m' a n := by
  intro i hi
  rw [h.isSome_eq]
  exact hm i hi

theorem of_put64 (hm : Mapped m a 8)
    (hin : (∃ b ∈ headers, b ≤ a ∧ a + 8 ≤ b + 32) ∨ (∃ n ∈ nodes, n ≤ a ∧ a + 8 ≤ n + 16)) :
    Touches m (put64 m a v) headers nodes := by
  refine ⟨isSome_put64 hm, fun x hx => ?_⟩
  have hmem : a ≤ x ∧ x < a + 8 := by
    by_contra hout
    refine hx (same_put64 (b := x) (k := 1) ?_ x (Nat.le_refl x) (Nat.lt_succ_self x))
    unfold Apart
    omega
  obtain ⟨b, hb, hlo, hhi⟩ | ⟨n, hn, hlo, hhi⟩ := hin
  · exact .inl ⟨b, hb, by omega, by omega⟩
  · exact .inr ⟨n, hn, by omega, by omega⟩

end Touches

/-! ## Nodes in memory -/

/-- The links of the node at `p`. -/
def loadNode (m : Mem) (p : ℕ) : Option (LinkedList.Links ℕ) := do
  let prev ← load64 m p
  let next ← load64 m (p + 8)
  return ⟨prev, next⟩

theorem loadNode_eq_some_iff {m : Mem} {p : ℕ} {l : LinkedList.Links ℕ} :
    loadNode m p = some l ↔ load64 m p = some l.prev ∧ load64 m (p + 8) = some l.next := by
  unfold loadNode
  constructor
  · intro h
    obtain ⟨prev, hprev, h⟩ := Option.bind_eq_some_iff.1 h
    obtain ⟨next, hnext, h⟩ := Option.bind_eq_some_iff.1 h
    cases h
    exact ⟨hprev, hnext⟩
  · rintro ⟨hprev, hnext⟩
    rw [hprev, hnext]
    rfl

theorem loadNode_congr {m m' : Mem} {p : ℕ} (h : Same m m' p 16) :
    loadNode m' p = loadNode m p := by
  unfold loadNode
  rw [load64_congr (h.mono (Nat.le_refl p) (by omega)),
    load64_congr (h.mono (Nat.le_add_right p 8) (by omega))]

theorem exists_load64 {m : Mem} {a : ℕ} (h : Mapped m a 8) : ∃ v, load64 m a = some v := by
  obtain ⟨bs, hbs⟩ := exists_readBytes h
  exact ⟨leNat bs, by rw [load64, hbs]; rfl⟩

theorem exists_loadNode {m : Mem} {p : ℕ} (h : Mapped m p 16) : ∃ l, loadNode m p = some l := by
  obtain ⟨prev, hprev⟩ := exists_load64 (h.mono (Nat.le_refl p) (by omega : p + 8 ≤ p + 16))
  obtain ⟨next, hnext⟩ := exists_load64 (h.mono (Nat.le_add_right p 8) (Nat.le_refl (p + 16)))
  exact ⟨⟨prev, next⟩, loadNode_eq_some_iff.2 ⟨hprev, hnext⟩⟩

/-- Storing the link back. -/
theorem loadNode_putPrev {m : Mem} {n v x : ℕ} (hv : v < 2 ^ 64) (hn : Mapped m n 16)
    (hx : x ≠ n → Apart x 16 n 16) :
    loadNode (put64 m n v) x = LinkedList.setPrev (loadNode m) n v x := by
  by_cases hxn : x = n
  · subst hxn
    obtain ⟨l, hl⟩ := exists_loadNode hn
    have hnext := (loadNode_eq_some_iff.1 hl).2
    have hsame : Same m (put64 m x v) (x + 8) 8 := same_put64 (.inr (Nat.le_refl _))
    rw [LinkedList.setPrev_self hl, loadNode_eq_some_iff]
    exact ⟨load64_put64_self hv m x, (load64_congr hsame).trans hnext⟩
  · have hapart := hx hxn
    rw [LinkedList.setPrev_of_ne hxn]
    refine loadNode_congr (same_put64 (hapart.mono ?_ ?_ ?_ ?_)) <;> omega

/-- Storing the link forward. -/
theorem loadNode_putNext {m : Mem} {n v x : ℕ} (hv : v < 2 ^ 64) (hn : Mapped m n 16)
    (hx : x ≠ n → Apart x 16 n 16) :
    loadNode (put64 m (n + 8) v) x = LinkedList.setNext (loadNode m) n v x := by
  by_cases hxn : x = n
  · subst hxn
    obtain ⟨l, hl⟩ := exists_loadNode hn
    have hprev := (loadNode_eq_some_iff.1 hl).1
    have hsame : Same m (put64 m (x + 8) v) x 8 := same_put64 (.inl (Nat.le_refl _))
    rw [LinkedList.setNext_self hl, loadNode_eq_some_iff]
    exact ⟨(load64_congr hsame).trans hprev, load64_put64_self hv m (x + 8)⟩
  · have hapart := hx hxn
    rw [LinkedList.setNext_of_ne hxn]
    refine loadNode_congr (same_put64 (hapart.mono ?_ ?_ ?_ ?_)) <;> omega

/-! ## Lists in memory -/

/-- Nodes at these addresses are mapped and have no byte in common. -/
structure Nodes (m : Mem) (nodes : Set ℕ) : Prop where
  mapped : ∀ n ∈ nodes, Mapped m n 16
  apart : ∀ x ∈ nodes, ∀ y ∈ nodes, x ≠ y → Apart x 16 y 16
  lt : ∀ n ∈ nodes, n < 2 ^ 64

namespace Nodes

variable {m m' : Mem} {headers nodes : Set ℕ} {n v x : ℕ}

theorem touches (h : Nodes m nodes) (t : Touches m m' headers nodes) : Nodes m' nodes :=
  ⟨fun n hn => t.mapped (h.mapped n hn), h.apart, h.lt⟩

theorem putPrev (h : Nodes m nodes) (hn : n ∈ nodes) (headers : Set ℕ) (v : ℕ) :
    Touches m (put64 m n v) headers nodes :=
  .of_put64 ((h.mapped n hn).mono (Nat.le_refl n) (by omega)) (.inr ⟨n, hn, by omega, by omega⟩)

theorem putNext (h : Nodes m nodes) (hn : n ∈ nodes) (headers : Set ℕ) (v : ℕ) :
    Touches m (put64 m (n + 8) v) headers nodes :=
  .of_put64 ((h.mapped n hn).mono (by omega) (by omega)) (.inr ⟨n, hn, by omega, by omega⟩)

theorem loadNode_putPrev (h : Nodes m nodes) (hn : n ∈ nodes) (hx : x ∈ nodes) (hv : v < 2 ^ 64) :
    loadNode (put64 m n v) x = LinkedList.setPrev (loadNode m) n v x :=
  Alloc.loadNode_putPrev hv (h.mapped n hn) fun hne => h.apart x hx n hn hne

theorem loadNode_putNext (h : Nodes m nodes) (hn : n ∈ nodes) (hx : x ∈ nodes) (hv : v < 2 ^ 64) :
    loadNode (put64 m (n + 8) v) x = LinkedList.setNext (loadNode m) n v x :=
  Alloc.loadNode_putNext hv (h.mapped n hn) fun hne => h.apart x hx n hn hne

end Nodes

/-- The stores that take out the node with the neighbours `l`. -/
def unlinkMem (m : Mem) (l : LinkedList.Links ℕ) : Mem :=
  if l.prev = 0 then
    if l.next = 0 then m else put64 m l.next 0
  else if l.next = 0 then put64 m (l.prev + 8) 0
  else put64 (put64 m (l.prev + 8) l.next) l.next l.prev

section

variable {m : Mem} {nodes : Set ℕ} {l : LinkedList.Links ℕ} {x : ℕ}

theorem touches_unlinkMem (h : Nodes m nodes) (hprev : l.prev ≠ 0 → l.prev ∈ nodes)
    (hnext : l.next ≠ 0 → l.next ∈ nodes) (headers : Set ℕ) :
    Touches m (unlinkMem m l) headers nodes := by
  unfold unlinkMem
  split_ifs with hp hn hn
  · exact .refl m headers nodes
  · exact h.putPrev (hnext hn) headers 0
  · exact h.putNext (hprev hp) headers 0
  · have ht := h.putNext (hprev hp) headers l.next
    exact ht.trans ((h.touches ht).putPrev (hnext hn) headers l.prev)

theorem loadNode_unlinkMem (h : Nodes m nodes) (hprev : l.prev ≠ 0 → l.prev ∈ nodes)
    (hnext : l.next ≠ 0 → l.next ∈ nodes) (hx : x ∈ nodes) :
    loadNode (unlinkMem m l) x = LinkedList.unlink (loadNode m) l x := by
  unfold unlinkMem LinkedList.unlink
  split_ifs with hp hn hn
  · rfl
  · exact h.loadNode_putPrev (hnext hn) hx (by decide)
  · exact h.loadNode_putNext (hprev hp) hx (by decide)
  · have ht := h.putNext (hprev hp) ∅ l.next
    rw [(h.touches ht).loadNode_putPrev (hnext hn) hx (h.lt _ (hprev hp))]
    unfold LinkedList.setPrev
    rw [h.loadNode_putNext (hprev hp) hx (h.lt _ (hnext hn))]

/-- The stores that put the node `n` in front of `head`. -/
def pushMem (m : Mem) (head n : ℕ) : Mem :=
  if head = 0 then put64 (put64 m n 0) (n + 8) head
  else put64 (put64 (put64 m n 0) (n + 8) head) head n

theorem touches_pushMem {head n : ℕ} (h : Nodes m nodes) (hn : n ∈ nodes)
    (hhead : head ≠ 0 → head ∈ nodes) (headers : Set ℕ) :
    Touches m (pushMem m head n) headers nodes := by
  have ht₁ := h.putPrev hn headers 0
  have ht₂ := ht₁.trans ((h.touches ht₁).putNext hn headers head)
  unfold pushMem
  split_ifs with hzero
  · exact ht₂
  · exact ht₂.trans ((h.touches ht₂).putPrev (hhead hzero) headers n)

theorem loadNode_pushMem {head n : ℕ} (h : Nodes m nodes) (hn : n ∈ nodes)
    (hhead : head ≠ 0 → head ∈ nodes) (hx : x ∈ nodes) :
    loadNode (pushMem m head n) x = LinkedList.push (loadNode m) head n x := by
  have hlt : head < 2 ^ 64 := by
    by_cases hzero : head = 0
    · omega
    · exact h.lt _ (hhead hzero)
  have ht₁ := h.putPrev hn ∅ 0
  have ht₂ := ht₁.trans ((h.touches ht₁).putNext hn ∅ head)
  have hplace : ∀ y ∈ nodes, loadNode (put64 (put64 m n 0) (n + 8) head) y =
      LinkedList.place (loadNode m) n ⟨0, head⟩ y := by
    intro y hy
    rw [(h.touches ht₁).loadNode_putNext hn hy hlt]
    by_cases hyn : y = n
    · obtain ⟨l, hl⟩ := exists_loadNode (h.mapped n hn)
      have hfirst : loadNode (put64 m n 0) n = some ⟨0, l.next⟩ := by
        rw [h.loadNode_putPrev hn hn (by decide), LinkedList.setPrev_self hl]
      rw [hyn, LinkedList.setNext_self hfirst, LinkedList.place_self]
    · rw [LinkedList.setNext_of_ne hyn, LinkedList.place_of_ne _ hyn,
        h.loadNode_putPrev hn hy (by decide), LinkedList.setPrev_of_ne hyn]
  unfold pushMem LinkedList.push
  split_ifs with hzero
  · exact hplace x hx
  · rw [(h.touches ht₂).loadNode_putPrev (hhead hzero) hx (h.lt n hn)]
    unfold LinkedList.setPrev
    rw [hplace x hx]

end

end Alloc
