import Mathlib.Algebra.Order.BigOperators.Group.Finset
import GoExperiments.Alloc.Layout
import GoExperiments.Alloc.Nodes

/-!
# What the memory says

The allocator has no other record of its pages and blocks than the headers and the links that it
keeps in the memory itself.  `Good s sh` says that the state `s` of the process is one in which
that record is right: `sh` is what the allocator has, every header says what the page is, and the
links of the free slots of a class make its free list.

An operation stores into headers and into the first bytes of slots that are not in the hands of the
client (`Touches`), so that every block the client has is as it was (`Touches.same_block`).
-/

namespace Alloc

open ByteMemory

/-! ## Headers in memory -/

/-- The header at `b` says what the page is, and for a page of slots how many the client has. -/
structure Header (m : Mem) (b : ℕ) (info : PageInfo) (used : ℕ) : Prop where
  log_eq : load64 m (b + 8) = some info.log
  size_eq : loadInt m (b + 16) = some (info.size : ℤ)
  brk_eq : info.log ≠ 0 → loadInt m b = some (info.brk : ℤ)
  used_eq : info.log ≠ 0 → loadInt m (b + 24) = some (used : ℤ)

theorem Header.congr {m m' : Mem} {b : ℕ} {info : PageInfo} {used : ℕ} (h : Header m b info used)
    (hsame : Same m m' b 32) : Header m' b info used := by
  have hfield : ∀ k, k ≤ 24 → Same m m' (b + k) 8 := fun k hk => hsame.mono (by omega) (by omega)
  exact ⟨(load64_congr (hfield 8 (by omega))).trans h.log_eq,
    (loadInt_congr (hfield 16 (by omega))).trans h.size_eq,
    fun hlog => (loadInt_congr (hfield 0 (by omega))).trans (h.brk_eq hlog),
    fun hlog => (loadInt_congr (hfield 24 (by omega))).trans (h.used_eq hlog)⟩

/-! ## What an operation leaves alone -/

variable {sh : Shape} {m m' : Mem} {headers nodes : Set ℕ} {b p : ℕ}

/-- A block whose links were not stored is as it was. -/
theorem Touches.same_block (t : Touches m m' headers nodes) (h : sh.Placed)
    (hheaders : ∀ b ∈ headers, b ∈ sh.pages) (hnodes : ∀ n ∈ nodes, sh.Block n)
    (hp : sh.Block p) (hnot : p ∉ nodes) : Same m m' p (sh.width p) := by
  intro x hx hxp
  by_contra hne
  obtain ⟨b, hb, hlo, hhi⟩ | ⟨n, hn, hlo, hhi⟩ := t.changed x hne
  · have hapart := h.header_apart (hheaders b hb) hp
    unfold Apart at hapart
    omega
  · have hapart := h.block_apart hp (hnodes n hn) fun heq => hnot (heq ▸ hn)
    have hwidth := h.sixteen_le_width (hnodes n hn)
    unfold Apart at hapart
    omega

/-- So is a header that was not stored to. -/
theorem Touches.same_header (t : Touches m m' headers nodes) (h : sh.Placed)
    (hheaders : ∀ b ∈ headers, b ∈ sh.pages) (hnodes : ∀ n ∈ nodes, sh.Block n)
    (hb : b ∈ sh.pages) (hnot : b ∉ headers) : Same m m' b 32 := by
  intro x hx hxb
  by_contra hne
  obtain ⟨c, hc, hlo, hhi⟩ | ⟨n, hn, hlo, hhi⟩ := t.changed x hne
  · have hapart := h.headers_apart hb (hheaders c hc) fun heq => hnot (heq ▸ hc)
    unfold Apart at hapart
    omega
  · have hapart := h.header_apart hb (hnodes n hn)
    have hwidth := h.sixteen_le_width (hnodes n hn)
    unfold Apart at hapart
    omega

/-- All of it is in the pages. -/
theorem Touches.eq_of_not_own (t : Touches m m' headers nodes) (h : sh.Placed)
    (hheaders : ∀ b ∈ headers, b ∈ sh.pages) (hnodes : ∀ n ∈ nodes, sh.Block n) {x : ℕ}
    (hx : ¬ sh.Own x) : m' x = m x := by
  by_contra hne
  obtain ⟨b, hb, hlo, hhi⟩ | ⟨n, hn, hlo, hhi⟩ := t.changed x hne
  · have hle := h.header_le (hheaders b hb)
    exact hx ⟨b, hheaders b hb, hlo, by omega⟩
  · have hinside := h.inside (hnodes n hn)
    have hwidth := h.sixteen_le_width (hnodes n hn)
    exact hx ⟨pageOf n, (hnodes n hn).1, by omega, by omega⟩

/-! ## The invariant -/

/-- The pages have no more bytes than there are addresses. -/
theorem Shape.Placed.sum_size_le (h : sh.Placed) : ∑ b ∈ sh.pages, (sh.info b).size ≤ 2 ^ 47 :=
  sum_le_of_apart (fun b hb => (h.fits b hb).high) h.apart

theorem Shape.Placed.card_pages_le (h : sh.Placed) : sh.pages.card ≤ 2 ^ 47 := by
  refine Nat.le_trans ?_ h.sum_size_le
  rw [Finset.card_eq_sum_ones]
  refine Finset.sum_le_sum fun b hb => ?_
  have hle := h.header_le hb
  omega

/-- The state of the process is right, and `sh` is what the allocator has. -/
structure Good (s : Machine) (sh : Shape) : Prop where
  placed : sh.Placed
  mapped : ∀ b ∈ sh.pages, Mapped s.mem b (sh.info b).size
  header : ∀ b ∈ sh.pages, Header s.mem b (sh.info b) (sh.used b)
  lists : ∀ log, LinkedList.IsList (loadNode s.mem) (s.a.lists log) (sh.free log)
  -- the page with slots that were never given out
  current : ∀ log, s.a.pages log ≠ 0 → s.a.pages log ∈ sh.pages ∧
    (sh.info (s.a.pages log)).log = log ∧ log ≠ 0 ∧ (sh.info (s.a.pages log)).brk < slots log
  cap : ∀ b ∈ sh.pages, (sh.info b).log ≠ 0 → s.a.cap (sh.info b).log = slots (sh.info b).log
  cap_eq : ∀ log, s.a.cap log = 0 ∨ (log ≤ 18 ∧ s.a.cap log = slots log)
  regs : s.a.regs = sh.pages
  mmaps : s.a.mmaps = sh.pages.card
  bytes : s.a.bytes = (∑ b ∈ sh.pages, (sh.info b).size : ℕ)

namespace Good

variable {s : Machine}

theorem mapped_block (g : Good s sh) (hp : sh.Block p) : Mapped s.mem p (sh.width p) := by
  have hinside := g.placed.inside hp
  exact (g.mapped _ hp.1).mono (by omega) (by omega)

theorem mapped_node (g : Good s sh) (hp : sh.Block p) : Mapped s.mem p 16 := by
  have hwidth := g.placed.sixteen_le_width hp
  exact (g.mapped_block hp).mono (Nat.le_refl p) (by omega)

theorem mapped_header (g : Good s sh) (hb : b ∈ sh.pages) : Mapped s.mem b 32 := by
  have hle := g.placed.header_le hb
  exact (g.mapped b hb).mono (Nat.le_refl b) (by omega)

theorem mapped_field {k : ℕ} (g : Good s sh) (hb : b ∈ sh.pages) (hk : k ≤ 24) :
    Mapped s.mem (b + k) 8 :=
  (g.mapped_header hb).mono (by omega) (by omega)

end Good

/-! ## Memory that is not the allocator's -/

/-- Memory that is mapped and in no page stays as it is and comes into no page; and if no `munmap`
failed, nothing else is mapped outside the pages than before. -/
structure Frame (s : Machine) (sh : Shape) (s' : Machine) (sh' : Shape) (clean : Prop) : Prop where
  foreign : ∀ x, (s.mem x).isSome = true → ¬ sh.Own x → s'.mem x = s.mem x ∧ ¬ sh'.Own x
  tight : clean → ∀ x, (s'.mem x).isSome = true →
    sh'.Own x ∨ ((s.mem x).isSome = true ∧ ¬ sh.Own x)

namespace Frame

variable {s s' s'' : Machine} {sh sh' sh'' : Shape} {clean clean' : Prop}

theorem refl_of_mem (hmem : s'.mem = s.mem) : Frame s sh s' sh clean := by
  refine ⟨fun x _ hx => ⟨by rw [hmem], hx⟩, fun _ x hx => ?_⟩
  rw [hmem] at hx
  exact (Classical.em (sh.Own x)).imp_right fun h => ⟨hx, h⟩

theorem trans (h : Frame s sh s' sh' clean) (h' : Frame s' sh' s'' sh'' clean') :
    Frame s sh s'' sh'' (clean ∧ clean') := by
  refine ⟨fun x hx hown => ?_, fun hc x hx => ?_⟩
  · obtain ⟨heq, hown'⟩ := h.foreign x hx hown
    obtain ⟨heq', hown''⟩ := h'.foreign x (by rw [heq]; exact hx) hown'
    exact ⟨heq'.trans heq, hown''⟩
  · obtain hown | ⟨hx', hown'⟩ := h'.tight hc.2 x hx
    · exact .inl hown
    · exact .inr ((h.tight hc.1 x hx').resolve_left hown')

/-- The state before counts by its memory only. -/
theorem of_mem {s₀ : Machine} (hmem : s₀.mem = s.mem) (h : Frame s₀ sh s' sh' clean) :
    Frame s sh s' sh' clean := by
  obtain ⟨hforeign, htight⟩ := h
  rw [hmem] at hforeign htight
  exact ⟨hforeign, htight⟩

theorem mono (h : Frame s sh s' sh' clean) (himp : clean' → clean) : Frame s sh s' sh' clean' :=
  ⟨h.foreign, fun hc => h.tight (himp hc)⟩

theorem of_touches (g : Good s sh) (t : Touches s.mem s'.mem headers nodes)
    (hheaders : ∀ b ∈ headers, b ∈ sh.pages) (hnodes : ∀ n ∈ nodes, sh.Block n)
    (hpages : sh'.pages = sh.pages) (hinfo : ∀ c, (sh'.info c).size = (sh.info c).size) :
    Frame s sh s' sh' clean := by
  have hown : ∀ x, sh'.Own x ↔ sh.Own x := by
    intro x
    unfold Shape.Own
    rw [hpages]
    simp only [hinfo]
  refine ⟨fun x _ hx => ⟨t.eq_of_not_own g.placed hheaders hnodes hx, by rwa [hown]⟩,
    fun _ x hx => ?_⟩
  rw [t.isSome_eq] at hx
  rw [hown]
  exact (Classical.em (sh.Own x)).imp_right fun h => ⟨hx, h⟩

end Frame

end Alloc
