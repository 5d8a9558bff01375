import Mathlib.Data.Finset.Card
import GoExperiments.Alloc.Machine

/-!
# Where the blocks are

The pages that the allocator has mapped, and the blocks in them.  A page of a class `log` that is
not 0 begins with its header and then has slots of `2 ^ log` bytes, of which the first `brk` were
given out at some time; a page of the class 0 is one block behind its header.

* `PageInfo.Fits` — what holds for every page, wherever it is.
* `Block` — the addresses of the blocks of a page.
* `Placed.block_apart`, `Placed.header_apart` — blocks and headers have no byte in common.
* `pageOf_block` — from the address of a block the code gets back to its page.
-/

namespace Alloc

open ByteMemory

/-- A page: its class, how many of its slots were given out, its size. -/
structure PageInfo where
  log : ℕ
  brk : ℕ
  size : ℕ

/-- The number of slots in a page of a class. -/
def slots (log : ℕ) : ℕ := 1048544 / 2 ^ log

/-- The address of slot `i` in the page at `b`. -/
def slot (b log i : ℕ) : ℕ := b + 32 + i * 2 ^ log

namespace PageInfo

/-- The size of the blocks of a page. -/
def width (info : PageInfo) : ℕ := if info.log = 0 then info.size - 32 else 2 ^ info.log

/-- A page at `b`: the class is one of those in use, and all of its slots are in the page. -/
structure Fits (info : PageInfo) (b : ℕ) : Prop where
  pos : 0 < b
  aligned : 2 ^ 20 ∣ b
  high : b + info.size ≤ 2 ^ 47
  dedicated : info.log = 0 → 48 ≤ info.size
  class_ge : info.log ≠ 0 → 4 ≤ info.log
  class_le : info.log ≤ 18
  brk_le : info.log ≠ 0 → info.brk ≤ slots info.log
  room : info.log ≠ 0 → 32 + slots info.log * 2 ^ info.log ≤ info.size
  small : info.log ≠ 0 → info.size ≤ 2 ^ 20

/-- With one slot more that was given out. -/
theorem Fits.more {info : PageInfo} {b : ℕ} (h : info.Fits b) (hbrk : info.brk < slots info.log) :
    Fits { info with brk := info.brk + 1 } b :=
  ⟨h.pos, h.aligned, h.high, h.dedicated, h.class_ge, h.class_le, fun _ => hbrk, h.room, h.small⟩

/-- `p` is a block of the page at `b`. -/
def Block (info : PageInfo) (b p : ℕ) : Prop :=
  (info.log = 0 ∧ p = b + 32) ∨ (info.log ≠ 0 ∧ ∃ i < info.brk, p = slot b info.log i)

variable {info : PageInfo} {b p q : ℕ}

theorem width_of_shared (h : info.log ≠ 0) : info.width = 2 ^ info.log := if_neg h

theorem width_of_dedicated (h : info.log = 0) : info.width = info.size - 32 := if_pos h

/-- A node fits into every block. -/
theorem Fits.sixteen_le_width (h : info.Fits b) : 16 ≤ info.width := by
  by_cases hlog : info.log = 0
  · have := h.dedicated hlog
    rw [width_of_dedicated hlog]
    omega
  · rw [width_of_shared hlog]
    exact Nat.pow_le_pow_right (n := 2) (by decide) (h.class_ge hlog)

theorem Fits.header_le (h : info.Fits b) : 32 ≤ info.size := by
  by_cases hlog : info.log = 0
  · have := h.dedicated hlog
    omega
  · have := h.room hlog
    omega

/-- A slot ends before the slots of the page do. -/
theorem slot_add_le {log i n : ℕ} (hi : i < n) : slot b log i + 2 ^ log ≤ b + 32 + n * 2 ^ log := by
  have hmul : (i + 1) * 2 ^ log ≤ n * 2 ^ log := Nat.mul_le_mul_right _ hi
  rw [Nat.add_mul, Nat.one_mul] at hmul
  unfold slot
  omega

/-- A block is behind the header and ends inside its page. -/
theorem Fits.block_inside (h : info.Fits b) (hp : info.Block b p) :
    b + 32 ≤ p ∧ p + info.width ≤ b + info.size := by
  obtain ⟨hlog, rfl⟩ | ⟨hlog, i, hi, rfl⟩ := hp
  · have := h.dedicated hlog
    rw [width_of_dedicated hlog]
    omega
  · have hroom := h.room hlog
    have hend : slot b info.log i + 2 ^ info.log ≤ b + 32 + slots info.log * 2 ^ info.log :=
      slot_add_le (Nat.lt_of_lt_of_le hi (h.brk_le hlog))
    rw [width_of_shared hlog]
    refine ⟨?_, by omega⟩
    unfold slot
    omega

/-- Two blocks of a page. -/
theorem Fits.block_apart (hp : info.Block b p) (hq : info.Block b q) (hne : p ≠ q) :
    Apart p info.width q info.width := by
  obtain ⟨hlog, rfl⟩ | ⟨hlog, i, hi, rfl⟩ := hp
  · obtain ⟨-, rfl⟩ | ⟨hlog', -⟩ := hq
    · exact absurd rfl hne
    · exact absurd hlog hlog'
  · obtain ⟨hlog', -⟩ | ⟨-, j, hj, rfl⟩ := hq
    · exact absurd hlog' hlog
    · rw [width_of_shared hlog]
      have hij : i ≠ j := fun heq => hne (by rw [heq])
      obtain hlt | hlt := Nat.lt_or_gt_of_ne hij
      · exact .inl (slot_add_le hlt)
      · exact .inr (slot_add_le hlt)

/-- Blocks are aligned. -/
theorem Fits.sixteen_dvd (h : info.Fits b) (hp : info.Block b p) : 16 ∣ p := by
  have hb : 16 ∣ b := Nat.dvd_trans (by decide) h.aligned
  obtain ⟨-, rfl⟩ | ⟨hlog, i, -, rfl⟩ := hp
  · exact Nat.dvd_add hb (by decide)
  · have hpow : 2 ^ 4 ∣ 2 ^ info.log := Nat.pow_dvd_pow 2 (h.class_ge hlog)
    exact Nat.dvd_add (Nat.dvd_add hb (by decide)) (Nat.dvd_trans hpow (Nat.dvd_mul_left _ _))

end PageInfo

open PageInfo

theorem pageOf_eq (p : ℕ) : pageOf p = p - p % 2 ^ 20 := by
  have hmask : uint64 pageMask = 2 ^ 20 - 1 := by decide
  rw [pageOf, hmask, andNot_mask]

/-- **From a block back to its page.** -/
theorem pageOf_block {info : PageInfo} {b p : ℕ} (h : info.Fits b) (hp : info.Block b p) :
    pageOf p = b := by
  have hoff : b ≤ p ∧ p - b < 2 ^ 20 := by
    obtain ⟨-, rfl⟩ | ⟨hlog, -⟩ := id hp
    · omega
    · have hinside := h.block_inside hp
      have hwidth := h.sixteen_le_width
      have hsmall := h.small hlog
      omega
  have hmod : p % 2 ^ 20 = p - b := by
    obtain ⟨k, rfl⟩ := h.aligned
    rw [show p = 2 ^ 20 * k + (p - 2 ^ 20 * k) by omega, Nat.mul_add_mod,
      Nat.mod_eq_of_lt (by omega)]
    omega
  rw [pageOf_eq]
  omega

/-! ## All pages -/

/-- What the allocator has: its pages, the blocks in the hands of the client, and for each class
the slots that were given back, in the order of the free list. -/
structure Shape where
  pages : Finset ℕ
  info : ℕ → PageInfo
  live : Finset ℕ
  free : ℕ → List ℕ

namespace Shape

variable (sh : Shape)

/-- `p` is a block, in the hands of the client or not. -/
def Block (p : ℕ) : Prop := pageOf p ∈ sh.pages ∧ (sh.info (pageOf p)).Block (pageOf p) p

/-- The number of bytes in a block. -/
def width (p : ℕ) : ℕ := (sh.info (pageOf p)).width

/-- `x` is in one of the pages. -/
def Own (x : ℕ) : Prop := ∃ b ∈ sh.pages, b ≤ x ∧ x < b + (sh.info b).size

/-- The number of blocks of a page that are in the hands of the client. -/
def used (b : ℕ) : ℕ := (sh.live.filter fun p => pageOf p = b).card

/-- Pages have no byte in common, what is in the hands of the client are blocks, and the free
lists have the other slots. -/
structure Placed : Prop where
  fits : ∀ b ∈ sh.pages, (sh.info b).Fits b
  apart : ∀ b ∈ sh.pages, ∀ c ∈ sh.pages, b ≠ c → Apart b (sh.info b).size c (sh.info c).size
  live_block : ∀ p ∈ sh.live, sh.Block p
  mem_free : ∀ log p, p ∈ sh.free log ↔
    sh.Block p ∧ p ∉ sh.live ∧ (sh.info (pageOf p)).log = log ∧ log ≠ 0

variable {sh} {b c p q : ℕ}

namespace Placed

theorem block_of_mem (h : sh.Placed) (hb : b ∈ sh.pages) (hp : (sh.info b).Block b p) :
    sh.Block p ∧ pageOf p = b := by
  have hpage := pageOf_block (h.fits b hb) hp
  exact ⟨by rw [Block, hpage]; exact ⟨hb, hp⟩, hpage⟩

theorem block_of_free {log : ℕ} (h : sh.Placed) (hp : p ∈ sh.free log) : sh.Block p :=
  ((h.mem_free log p).1 hp).1

/-- A block is behind the header of its page and ends inside the page. -/
theorem inside (h : sh.Placed) (hp : sh.Block p) :
    pageOf p + 32 ≤ p ∧ p + sh.width p ≤ pageOf p + (sh.info (pageOf p)).size :=
  (h.fits _ hp.1).block_inside hp.2

theorem sixteen_le_width (h : sh.Placed) (hp : sh.Block p) : 16 ≤ sh.width p :=
  (h.fits _ hp.1).sixteen_le_width

theorem header_le (h : sh.Placed) (hb : b ∈ sh.pages) : 32 ≤ (sh.info b).size :=
  (h.fits b hb).header_le

/-- **Blocks have no byte in common.** -/
theorem block_apart (h : sh.Placed) (hp : sh.Block p) (hq : sh.Block q) (hne : p ≠ q) :
    Apart p (sh.width p) q (sh.width q) := by
  by_cases hpage : pageOf p = pageOf q
  · have hq' := hq.2
    rw [← hpage] at hq'
    unfold width
    rw [← hpage]
    exact Fits.block_apart hp.2 hq' hne
  · have hp' := h.inside hp
    have hq' := h.inside hq
    exact (h.apart _ hp.1 _ hq.1 hpage).mono (by omega) (by omega) (by omega) (by omega)

/-- No block overlaps a header. -/
theorem header_apart (h : sh.Placed) (hb : b ∈ sh.pages) (hp : sh.Block p) :
    Apart b 32 p (sh.width p) := by
  have hp' := h.inside hp
  have hle := h.header_le hb
  by_cases hpage : b = pageOf p
  · exact .inl (by omega)
  · exact (h.apart b hb _ hp.1 hpage).mono (by omega) (by omega) (by omega) (by omega)

theorem headers_apart (h : sh.Placed) (hb : b ∈ sh.pages) (hc : c ∈ sh.pages) (hne : b ≠ c) :
    Apart b 32 c 32 := by
  have hb' := h.header_le hb
  have hc' := h.header_le hc
  exact (h.apart b hb c hc hne).mono (by omega) (by omega) (by omega) (by omega)

/-- The first bytes of two blocks, where their links are. -/
theorem nodes_apart (h : sh.Placed) (hp : sh.Block p) (hq : sh.Block q) (hne : p ≠ q) :
    Apart p 16 q 16 := by
  have hp' := h.sixteen_le_width hp
  have hq' := h.sixteen_le_width hq
  exact (h.block_apart hp hq hne).mono (by omega) (by omega) (by omega) (by omega)

theorem ne_zero (h : sh.Placed) (hp : sh.Block p) : p ≠ 0 := by
  have := h.inside hp
  omega

theorem lt_two_pow (h : sh.Placed) (hp : sh.Block p) : p < 2 ^ 47 := by
  have hinside := h.inside hp
  have hhigh := (h.fits _ hp.1).high
  have hwidth := h.sixteen_le_width hp
  omega

/-- A slot is in the free list of its class only. -/
theorem class_unique {log log' : ℕ} (h : sh.Placed) (hp : p ∈ sh.free log)
    (hp' : p ∈ sh.free log') : log = log' :=
  ((h.mem_free log p).1 hp).2.2.1.symm.trans ((h.mem_free log' p).1 hp').2.2.1

theorem not_live_of_free {log : ℕ} (h : sh.Placed) (hp : p ∈ sh.free log) : p ∉ sh.live :=
  ((h.mem_free log p).1 hp).2.1

end Placed

/-! ## The operations -/

/-- A page was mapped. -/
def addPage (sh : Shape) (b : ℕ) (info : PageInfo) : Shape :=
  { sh with pages := insert b sh.pages, info := setAt sh.info b info }

/-- The client got the block `p`, which was free or is new. -/
def take (sh : Shape) (p log : ℕ) : Shape :=
  { sh with live := insert p sh.live, free := setAt sh.free log ((sh.free log).erase p) }

/-- The next slot of the page at `b` was given out. -/
def grow (sh : Shape) (b : ℕ) : Shape :=
  { sh with
    info := setAt sh.info b { sh.info b with brk := (sh.info b).brk + 1 }
    live := insert (slot b (sh.info b).log (sh.info b).brk) sh.live }

/-- The client gave back the slot `p`. -/
def give (sh : Shape) (p log : ℕ) : Shape :=
  { sh with live := sh.live.erase p, free := setAt sh.free log (p :: sh.free log) }

/-- A page was unmapped. -/
def dropPage (sh : Shape) (b : ℕ) : Shape :=
  { pages := sh.pages.erase b
    info := sh.info
    live := sh.live.filter fun p => pageOf p ≠ b
    free := fun log => (sh.free log).filter fun p => pageOf p ≠ b }

end Shape

theorem setAt_self {β : Type} (f : ℕ → β) (i : ℕ) (v : β) : setAt f i v i = v := if_pos rfl

theorem setAt_of_ne {β : Type} {f : ℕ → β} {i j : ℕ} {v : β} (h : j ≠ i) : setAt f i v j = f j :=
  if_neg h

namespace Shape

variable {sh : Shape} {b c p q log : ℕ}

theorem used_insert {live : Finset ℕ} (hnew : p ∉ live) (c : ℕ) :
    ((insert p live).filter fun q => pageOf q = c).card =
      (live.filter fun q => pageOf q = c).card + if pageOf p = c then 1 else 0 := by
  rw [Finset.filter_insert]
  split_ifs with hpage
  · rw [Finset.card_insert_of_notMem fun hmem => hnew (Finset.mem_filter.1 hmem).1]
  · rfl

theorem used_erase {live : Finset ℕ} (hmem : p ∈ live) (c : ℕ) :
    (live.filter fun q => pageOf q = c).card =
      ((live.erase p).filter fun q => pageOf q = c).card + if pageOf p = c then 1 else 0 := by
  have hinsert := used_insert (Finset.notMem_erase p live) c
  rwa [Finset.insert_erase hmem] at hinsert

/-- Slots of a page have different addresses. -/
theorem slot_injective (b log : ℕ) : Function.Injective (slot b log) := by
  intro i j h
  unfold slot at h
  exact Nat.eq_of_mul_eq_mul_right (Nat.two_pow_pos log) (Nat.add_left_cancel h)

theorem grow_info_self :
    (sh.grow b).info b = { sh.info b with brk := (sh.info b).brk + 1 } :=
  setAt_self _ _ _

theorem grow_info_of_ne (h : c ≠ b) : (sh.grow b).info c = sh.info c := setAt_of_ne h

theorem grow_info (sh : Shape) (b c : ℕ) :
    ((sh.grow b).info c).log = (sh.info c).log ∧ ((sh.grow b).info c).size = (sh.info c).size := by
  by_cases hc : c = b
  · rw [hc, grow_info_self]
    exact ⟨rfl, rfl⟩
  · rw [grow_info_of_ne hc]
    exact ⟨rfl, rfl⟩

/-- Blocks keep their size. -/
theorem grow_width (sh : Shape) (b q : ℕ) : (sh.grow b).width q = sh.width q := by
  obtain ⟨hlog, hsize⟩ := grow_info sh b (pageOf q)
  unfold width PageInfo.width
  rw [hlog, hsize]

namespace Placed

/-- A new page has a place of its own, and none of its slots was given out. -/
theorem addPage {info : PageInfo} (h : sh.Placed) (hnew : b ∉ sh.pages) (hfits : info.Fits b)
    (hapart : ∀ c ∈ sh.pages, Apart b info.size c (sh.info c).size)
    (hempty : info.log ≠ 0 → info.brk = 0) : (sh.addPage b info).Placed := by
  have hold : ∀ {c}, c ∈ sh.pages → c ≠ b ∧ (sh.addPage b info).info c = sh.info c := by
    intro c hc
    have hne : c ≠ b := fun heq => hnew (heq ▸ hc)
    exact ⟨hne, setAt_of_ne hne⟩
  have hself : (sh.addPage b info).info b = info := setAt_self _ _ _
  have hblock : ∀ {p}, sh.Block p → (sh.addPage b info).Block p := by
    intro p hp
    exact ⟨Finset.mem_insert_of_mem hp.1, by rw [(hold hp.1).2]; exact hp.2⟩
  refine ⟨?_, ?_, fun p hp => hblock (h.live_block p hp), fun log p => ?_⟩
  · intro c hc
    obtain rfl | hc := Finset.mem_insert.1 hc
    · rwa [hself]
    · rw [(hold hc).2]
      exact h.fits c hc
  · intro c hc d hd hne
    obtain hcb | hcmem := Finset.mem_insert.1 hc
    · obtain hdb | hdmem := Finset.mem_insert.1 hd
      · exact absurd (hcb.trans hdb.symm) hne
      · rw [hcb, hself, (hold hdmem).2]
        exact hapart d hdmem
    · obtain hdb | hdmem := Finset.mem_insert.1 hd
      · rw [hdb, hself, (hold hcmem).2]
        exact (hapart c hcmem).symm
      · rw [(hold hcmem).2, (hold hdmem).2]
        exact h.apart c hcmem d hdmem hne
  · refine (h.mem_free log p).trans ⟨?_, ?_⟩
    · rintro ⟨hp, hlive, hlog, hne⟩
      exact ⟨hblock hp, hlive, by rw [(hold hp.1).2]; exact hlog, hne⟩
    · rintro ⟨⟨hpage, hp⟩, hlive, hlog, hne⟩
      obtain heq | hmem := Finset.mem_insert.1 hpage
      · rw [heq, hself] at hp hlog
        obtain ⟨hzero, -⟩ | ⟨hlog', i, hi, -⟩ := hp
        · exact absurd (hlog.symm.trans hzero) hne
        · rw [hempty hlog'] at hi
          exact absurd hi (Nat.not_lt_zero i)
      · rw [(hold hmem).2] at hp hlog
        exact ⟨⟨hmem, hp⟩, hlive, hlog, hne⟩

/-- A block that the client did not have. -/
theorem take (h : sh.Placed) (hp : sh.Block p) (hlog : (sh.info (pageOf p)).log = log)
    (hnodup : (sh.free log).Nodup) : (sh.take p log).Placed := by
  refine ⟨h.fits, h.apart, ?_, fun l q => ?_⟩
  · intro q hq
    obtain rfl | hq := Finset.mem_insert.1 hq
    · exact hp
    · exact h.live_block q hq
  · have hlive : q ∉ (sh.take p log).live ↔ q ≠ p ∧ q ∉ sh.live := by
      rw [Shape.take, Finset.mem_insert, not_or]
    rw [hlive]
    by_cases hl : l = log
    · subst hl
      have hfree : (sh.take p l).free l = (sh.free l).erase p := setAt_self _ _ _
      rw [hfree, hnodup.mem_erase_iff, h.mem_free]
      exact ⟨fun ⟨hne, hb, hq, hrest⟩ => ⟨hb, ⟨hne, hq⟩, hrest⟩,
        fun ⟨hb, ⟨hne, hq⟩, hrest⟩ => ⟨hne, hb, hq, hrest⟩⟩
    · have hfree : (sh.take p log).free l = sh.free l := setAt_of_ne hl
      rw [hfree, h.mem_free]
      refine ⟨fun ⟨hb, hq, hlog', hne⟩ => ⟨hb, ⟨?_, hq⟩, hlog', hne⟩,
        fun ⟨hb, ⟨_, hq⟩, hrest⟩ => ⟨hb, hq, hrest⟩⟩
      rintro rfl
      exact hl (hlog'.symm.trans hlog)

/-- A slot that the client gave back. -/
theorem give (h : sh.Placed) (hp : p ∈ sh.live) (hlog : (sh.info (pageOf p)).log = log)
    (hne : log ≠ 0) : (sh.give p log).Placed := by
  refine ⟨h.fits, h.apart, fun q hq => h.live_block q (Finset.mem_of_mem_erase hq),
    fun l q => ?_⟩
  have hlive : q ∉ (sh.give p log).live ↔ q = p ∨ q ∉ sh.live := by
    rw [Shape.give, Finset.mem_erase, not_and_or, not_not]
  rw [hlive]
  by_cases hl : l = log
  · subst hl
    have hfree : (sh.give p l).free l = p :: sh.free l := setAt_self _ _ _
    rw [hfree, List.mem_cons, h.mem_free]
    constructor
    · rintro (rfl | ⟨hb, hq, hrest⟩)
      · exact ⟨h.live_block q hp, .inl rfl, hlog, hne⟩
      · exact ⟨hb, .inr hq, hrest⟩
    · rintro ⟨hb, rfl | hq, hrest⟩
      · exact .inl rfl
      · exact .inr ⟨hb, hq, hrest⟩
  · have hfree : (sh.give p log).free l = sh.free l := setAt_of_ne hl
    rw [hfree, h.mem_free]
    refine ⟨fun ⟨hb, hq, hrest⟩ => ⟨hb, .inr hq, hrest⟩, ?_⟩
    rintro ⟨hb, rfl | hq, hlog', hne'⟩
    · exact absurd (hlog'.symm.trans hlog) hl
    · exact ⟨hb, hq, hlog', hne'⟩

theorem pageOf_next (h : sh.Placed) (hb : b ∈ sh.pages) (hlog : (sh.info b).log ≠ 0)
    (hbrk : (sh.info b).brk < slots (sh.info b).log) :
    pageOf (slot b (sh.info b).log (sh.info b).brk) = b :=
  pageOf_block ((h.fits b hb).more hbrk) (.inr ⟨hlog, _, Nat.lt_succ_self _, rfl⟩)

/-- The next slot of a page was not given out. -/
theorem next_not_block (h : sh.Placed) (hb : b ∈ sh.pages) (hlog : (sh.info b).log ≠ 0)
    (hbrk : (sh.info b).brk < slots (sh.info b).log) :
    ¬ sh.Block (slot b (sh.info b).log (sh.info b).brk) := by
  rintro ⟨-, hold⟩
  rw [h.pageOf_next hb hlog hbrk] at hold
  obtain ⟨hzero, -⟩ | ⟨-, i, hi, heq⟩ := hold
  · exact hlog hzero
  · rw [slot_injective b _ heq] at hi
    exact Nat.lt_irrefl i hi

/-- The next slot of a page. -/
theorem grow (h : sh.Placed) (hb : b ∈ sh.pages) (hlog : (sh.info b).log ≠ 0)
    (hbrk : (sh.info b).brk < slots (sh.info b).log) : (sh.grow b).Placed := by
  have hpage := h.pageOf_next hb hlog hbrk
  have hnew := h.next_not_block hb hlog hbrk
  -- the blocks are the old ones and the next slot
  have hblock : ∀ q, (sh.grow b).Block q ↔
      sh.Block q ∨ q = slot b (sh.info b).log (sh.info b).brk := by
    intro q
    unfold Shape.Block
    by_cases hq : pageOf q = b
    · rw [hq, grow_info_self]
      constructor
      · rintro ⟨-, ⟨hzero, -⟩ | ⟨-, i, hi, rfl⟩⟩
        · exact absurd hzero hlog
        · obtain hlt | rfl := Nat.lt_succ_iff_lt_or_eq.1 hi
          · exact .inl ⟨hb, .inr ⟨hlog, i, hlt, rfl⟩⟩
          · exact .inr rfl
      · rintro (⟨-, ⟨hzero, -⟩ | ⟨-, i, hi, rfl⟩⟩ | rfl)
        · exact absurd hzero hlog
        · exact ⟨hb, .inr ⟨hlog, i, Nat.lt_succ_of_lt hi, rfl⟩⟩
        · exact ⟨hb, .inr ⟨hlog, _, Nat.lt_succ_self _, rfl⟩⟩
    · rw [grow_info_of_ne hq]
      exact ⟨.inl, fun hor => hor.resolve_right fun heq => hq (heq ▸ hpage)⟩
  refine ⟨fun c hc => ?_, fun c hc d hd hne => ?_, fun q hq => ?_, fun l q => ?_⟩
  · by_cases hcb : c = b
    · rw [hcb, grow_info_self]
      exact (h.fits b hb).more hbrk
    · rw [grow_info_of_ne hcb]
      exact h.fits c hc
  · rw [(grow_info sh b c).2, (grow_info sh b d).2]
    exact h.apart c hc d hd hne
  · obtain rfl | hq := Finset.mem_insert.1 hq
    · exact (hblock _).2 (.inr rfl)
    · exact (hblock q).2 (.inl (h.live_block q hq))
  · have hlive : q ∉ (sh.grow b).live ↔
        q ≠ slot b (sh.info b).log (sh.info b).brk ∧ q ∉ sh.live := by
      rw [Shape.grow, Finset.mem_insert, not_or]
    rw [hblock, hlive, (grow_info sh b _).1]
    refine (h.mem_free l q).trans ⟨?_, ?_⟩
    · rintro ⟨hq, hnot, hrest⟩
      exact ⟨.inl hq, ⟨fun heq => hnew (heq ▸ hq), hnot⟩, hrest⟩
    · rintro ⟨hq | rfl, ⟨hne, hnot⟩, hrest⟩
      · exact ⟨hq, hnot, hrest⟩
      · exact absurd rfl hne

/-- A page less. -/
theorem dropPage (h : sh.Placed) (b : ℕ) : (sh.dropPage b).Placed := by
  refine ⟨fun c hc => h.fits c (Finset.mem_of_mem_erase hc),
    fun c hc d hd => h.apart c (Finset.mem_of_mem_erase hc) d (Finset.mem_of_mem_erase hd),
    fun q hq => ?_, fun l q => ?_⟩
  · obtain ⟨hq, hne⟩ := Finset.mem_filter.1 hq
    have hblock := h.live_block q hq
    exact ⟨Finset.mem_erase.2 ⟨hne, hblock.1⟩, hblock.2⟩
  · have hfree : q ∈ (sh.dropPage b).free l ↔ q ∈ sh.free l ∧ pageOf q ≠ b := by
      rw [Shape.dropPage, List.mem_filter, decide_eq_true_iff]
    have hlive : q ∉ (sh.dropPage b).live ↔ ¬ (q ∈ sh.live ∧ pageOf q ≠ b) := by
      rw [Shape.dropPage, Finset.mem_filter]
    rw [hfree, hlive, h.mem_free]
    constructor
    · rintro ⟨⟨hq, hnot, hrest⟩, hne⟩
      exact ⟨⟨Finset.mem_erase.2 ⟨hne, hq.1⟩, hq.2⟩, fun hlive => hnot hlive.1, hrest⟩
    · rintro ⟨⟨hpage, hq⟩, hnot, hrest⟩
      obtain ⟨hne, hpage⟩ := Finset.mem_erase.1 hpage
      exact ⟨⟨⟨hpage, hq⟩, fun hlive => hnot ⟨hlive, hne⟩, hrest⟩, hne⟩

end Placed

end Shape

end Alloc
