import GoExperiments.Alloc.Mapping
import GoExperiments.Alloc.Release

/-!
# Blocks given out

A page is mapped (`addPage_good`), for one block (`newPage_spec`) or for the slots of a class
(`newSharedPage_spec`), and `UintptrMalloc` gives out a block that the client did not have and that
is as large as the request, or fails; either way the blocks that the client has are as they were
(`uintptrMalloc_spec`).
-/

namespace Alloc

open ByteMemory Go

variable {os : Os} {s : Machine} {sh : Shape} {b p log : ℕ} {ans : MmapAnswer}

/-! ## Memory that is mapped besides -/

theorem same_of_extends {m m' : Mem} {a n : ℕ} (h : ∀ x, (m x).isSome = true → m' x = m x)
    (hm : Mapped m a n) : Same m m' a n := by
  intro x hx hxn
  have hsome := hm (x - a) (by omega)
  rw [show a + (x - a) = x by omega] at hsome
  exact h x hsome

/-- What is mapped elsewhere is of no consequence. -/
theorem Good.of_extends {m' : Mem} (g : Good s sh)
    (h : ∀ x, (s.mem x).isSome = true → m' x = s.mem x) : Good { s with mem := m' } sh := by
  refine ⟨g.placed, fun b hb => ?_, fun b hb => ?_, fun log => ?_, g.current, g.cap, g.cap_eq,
    g.regs, g.mmaps, g.bytes⟩
  · exact (g.mapped b hb).congr (same_of_extends h (g.mapped b hb))
  · exact (g.header b hb).congr (same_of_extends h (g.mapped_header hb))
  · refine (g.lists log).congr fun q hq => loadNode_congr ?_
    exact same_of_extends h (g.mapped_node (g.placed.block_of_free hq))

/-! ## A new page -/

/-- The header of a new page. -/
def newHeader (m : Mem) (b size log : ℕ) : Mem := put64 (putInt m (b + 16) size) (b + 8) log

theorem header_newHeader {m : Mem} {size used : ℕ} (hm : ∀ x, b ≤ x → x < b + 32 → m x = some 0)
    (hlog : log < 2 ^ 64) (hsize : size < 2 ^ 63) (hused : log ≠ 0 → used = 0) :
    Header (newHeader m b size log) b ⟨log, 0, size⟩ used := by
  have hzero : ∀ k, k = 0 ∨ k = 24 → loadInt (newHeader m b size log) (b + k) = some 0 := by
    intro k hk
    have h₁ : Same m (putInt m (b + 16) size) (b + k) 8 := same_put64 (by unfold Apart; omega)
    have h₂ : Same (putInt m (b + 16) size) (newHeader m b size log) (b + k) 8 :=
      same_put64 (by unfold Apart; omega)
    rw [loadInt_congr (h₁.trans h₂), loadInt_of_zero fun x hx hxk => hm x (by omega) (by omega)]
  have hkeep : Same (putInt m (b + 16) size) (newHeader m b size log) (b + 16) 8 :=
    same_put64 (by unfold Apart; omega)
  refine ⟨load64_put64_self hlog _ _, ?_, fun _ => hzero 0 (.inl rfl), fun h => ?_⟩
  · rw [loadInt_congr hkeep]
    exact loadInt_putInt_self (by omega) (by omega) m (b + 16)
  · rw [hused h]
    exact hzero 24 (.inr rfl)

theorem newHeader_of_not_mem {m : Mem} {size x : ℕ} (hx : ¬ (b ≤ x ∧ x < b + 32)) :
    newHeader m b size log x = m x := by
  have h₁ : Same m (putInt m (b + 16) size) x 1 := same_put64 (by unfold Apart; omega)
  have h₂ : Same (putInt m (b + 16) size) (newHeader m b size log) x 1 :=
    same_put64 (by unfold Apart; omega)
  exact (h₁.trans h₂) x (Nat.le_refl x) (Nat.lt_succ_self x)

/-- The range of a new page, and the memory before and after it was mapped. -/
structure Range (m m' : Mem) (b n : ℕ) : Prop where
  new : ∀ x, b ≤ x → x < b + n → m x = none ∧ m' x = some 0
  old : ∀ x, ¬ (b ≤ x ∧ x < b + n) → m' x = m x

namespace Range

variable {m m' : Mem} {n : ℕ}

theorem mapped (h : Range m m' b n) : Mapped m' b n := by
  intro i hi
  rw [(h.new (b + i) (by omega) (by omega)).2]
  rfl

theorem not_page (h : Range s.mem m' b n) (g : Good s sh) (hn : 32 ≤ n) : b ∉ sh.pages := by
  intro hb
  have hsome := g.mapped_field hb (Nat.zero_le 24) 0 (by decide)
  rw [Nat.add_zero, (h.new b (Nat.le_refl b) (by omega)).1] at hsome
  cases hsome

theorem newHeader_old {size x : ℕ} (h : Range m m' b n) (hn : 32 ≤ n)
    (hx : ¬ (b ≤ x ∧ x < b + n)) : newHeader m' b size log x = m x := by
  rw [newHeader_of_not_mem (by omega), h.old x hx]

/-- What was mapped before is as it was. -/
theorem newHeader_ext {size : ℕ} (h : Range m m' b n) (hn : 32 ≤ n) (x : ℕ)
    (hx : (m x).isSome = true) : newHeader m' b size log x = m x := by
  refine h.newHeader_old hn fun hin => ?_
  rw [(h.new x hin.1 hin.2).1] at hx
  cases hx

end Range

/-- The bytes of the pages, with one page more. -/
theorem sum_size_addPage {info : PageInfo} (hnot : b ∉ sh.pages) :
    ∑ c ∈ (sh.addPage b info).pages, ((sh.addPage b info).info c).size =
      info.size + ∑ c ∈ sh.pages, (sh.info c).size := by
  have hself : (sh.addPage b info).info b = info := setAt_self _ _ _
  have hold : ∑ c ∈ sh.pages, ((sh.addPage b info).info c).size =
      ∑ c ∈ sh.pages, (sh.info c).size :=
    Finset.sum_congr rfl fun c hc => by
      rw [show (sh.addPage b info).info c = sh.info c from
        setAt_of_ne fun heq => hnot (heq ▸ hc)]
  rw [show (sh.addPage b info).pages = insert b sh.pages from rfl, Finset.sum_insert hnot, hself,
    hold]

/-- **A page is added**, with a header of its own and no slot given out. -/
theorem addPage_good {m : Mem} {a' : Allocator} {size : ℕ} (g : Good s sh)
    (hfits : PageInfo.Fits ⟨log, 0, size⟩ b) (hrange : Range s.mem m b size)
    (hlists : a'.lists = s.a.lists)
    (hcap : ∀ l, l = log ∧ log ≠ 0 ∨ a'.cap l = s.a.cap l)
    (hcaplog : log ≠ 0 → a'.cap log = slots log)
    (hpages : ∀ l, a'.pages l ≠ 0 →
      a'.pages l = s.a.pages l ∨ (l = log ∧ log ≠ 0 ∧ a'.pages l = b))
    (hregs : a'.regs = insert b s.a.regs) (hmmaps : a'.mmaps = int64 (s.a.mmaps + 1))
    (hbytes : a'.bytes = int64 (s.a.bytes + size)) :
    Good ⟨newHeader m b size log, a'⟩ (sh.addPage b ⟨log, 0, size⟩) := by
  have hsize : 32 ≤ size := hfits.header_le
  have hhigh : b + size ≤ 2 ^ 47 := hfits.high
  have hclass : log ≤ 18 := hfits.class_le
  have hnot := hrange.not_page g hsize
  have hinfo : ∀ {c}, c ∈ sh.pages → (sh.addPage b ⟨log, 0, size⟩).info c = sh.info c :=
    fun hc => setAt_of_ne fun heq => hnot (heq ▸ hc)
  have hself : (sh.addPage b ⟨log, 0, size⟩).info b = ⟨log, 0, size⟩ := setAt_self _ _ _
  have hapart : ∀ c ∈ sh.pages, Apart b size c (sh.info c).size := by
    intro c hc
    have hle := g.placed.header_le hc
    exact (g.mapped c hc).apart (by omega) (by omega) fun x hx hxn => (hrange.new x hx hxn).1
  have hext : ∀ x, (s.mem x).isSome = true → newHeader m b size log x = s.mem x :=
    fun x hx => hrange.newHeader_ext hsize x hx
  have g' := g.of_extends hext
  have hmapped := hrange.mapped
  have hmap₁ : Mapped m (b + 16) 8 := hmapped.mono (by omega) (by omega)
  have hmap₂ : Mapped (putInt m (b + 16) size) (b + 8) 8 :=
    Mapped.put64 (hmapped.mono (by omega) (by omega)) hmap₁
  have hused : sh.used b = 0 := by
    by_contra hpos
    obtain ⟨q, hq, hpage⟩ := Shape.used_pos_iff.1 (Nat.pos_of_ne_zero hpos)
    exact hnot (hpage ▸ (g.placed.live_block q hq).1)
  -- the counters do not wrap
  have hfew := g.placed.card_pages_le
  have hsmall := g.placed.sum_size_le
  refine ⟨g.placed.addPage hnot hfits hapart fun _ => rfl, fun c hc => ?_, fun c hc => ?_,
    fun l => ?_, fun l hl => ?_, fun c hc => ?_, fun l => ?_, ?_, ?_, ?_⟩
  · obtain rfl | hc := Finset.mem_insert.1 hc
    · rw [hself]
      exact (hmapped.put64 hmap₁).put64 hmap₂
    · rw [hinfo hc]
      exact g'.mapped c hc
  · obtain rfl | hc := Finset.mem_insert.1 hc
    · rw [hself]
      exact header_newHeader (fun x hx hxn => (hrange.new x hx (by omega)).2) (by omega) (by omega)
        fun _ => hused
    · rw [hinfo hc]
      exact g'.header c hc
  · dsimp only
    rw [hlists]
    exact g'.lists l
  · obtain heq | ⟨rfl, hlog, heq⟩ := hpages l hl
    · dsimp only
      obtain ⟨hmem, hrest⟩ := g.current l (heq ▸ hl)
      rw [heq, hinfo hmem]
      exact ⟨Finset.mem_insert_of_mem hmem, hrest⟩
    · dsimp only
      rw [heq, hself]
      refine ⟨Finset.mem_insert_self _ _, rfl, hlog, Nat.div_pos ?_ (Nat.two_pow_pos _)⟩
      exact Nat.le_trans (Nat.pow_le_pow_right (by decide) hclass) (by decide)
  · obtain rfl | hc := Finset.mem_insert.1 hc
    · rw [hself]
      exact hcaplog
    · rw [hinfo hc]
      intro hlog
      obtain ⟨hl, -⟩ | heq := hcap (sh.info c).log
      · rw [hl] at hlog ⊢
        exact hcaplog hlog
      · exact heq.trans (g.cap c hc hlog)
  · obtain ⟨rfl, hlog⟩ | heq := hcap l
    · exact .inr ⟨hclass, hcaplog hlog⟩
    · dsimp only
      rw [heq]
      exact g.cap_eq l
  · dsimp only [Shape.addPage]
    rw [hregs, g.regs]
  · dsimp only [Shape.addPage]
    rw [hmmaps, g.mmaps, Finset.card_insert_of_notMem hnot]
    exact int64_of_fits (by omega) (by omega)
  · dsimp only
    rw [sum_size_addPage hnot, hbytes, g.bytes, int64_of_fits (by omega) (by omega)]
    dsimp only
    omega

/-! ## `UintptrMalloc` -/

/-- How many bytes `UintptrMalloc` asks the operating system for, if it asks. -/
def asked (os : Os) (size : ℕ) : ℕ :=
  os.roundup (if sizeLog size ≤ 18 then 32 + slots (sizeLog size) * 2 ^ sizeLog size
    else size + 32) + 2 ^ 20

/-- How many bytes a block for `size` bytes has. -/
def usable (os : Os) (size : ℕ) : ℕ :=
  if sizeLog size ≤ 18 then 2 ^ sizeLog size else os.roundup (size + 32) - 32

theorem le_usable {size : ℕ} (hpos : 0 < size) (hle : size ≤ 2 ^ 62) : size ≤ usable os size := by
  have hround := os.le_roundup (size + 32)
  unfold usable
  split_ifs
  · exact le_two_pow_sizeLog hpos hle
  · omega

/-- What `UintptrMalloc` leaves where it fails: everything as it was. -/
structure Failed (s : Machine) (sh : Shape) (ans : MmapAnswer) (s' : Machine) : Prop where
  refused : ans.Refused
  good : Good s' sh
  same : ∀ q ∈ sh.live, Same s.mem s'.mem q (sh.width q)
  allocs : s'.a.allocs = int64 (s.a.allocs + 1)
  frame : Frame s sh s' sh (ans.head = true ∧ ans.tail = true)

/-- What `UintptrMalloc` leaves where it gives out `p`: a block of `w` bytes more, the others as they
were. -/
structure Given (s : Machine) (sh : Shape) (w p : ℕ) (s' : Machine) (sh' : Shape) : Prop where
  good : Good s' sh'
  busy : sh'.Busy
  fresh : p ∉ sh.live
  live : sh'.live = insert p sh.live
  width_new : sh'.width p = w
  width : ∀ q ∈ sh.live, sh'.width q = sh.width q
  same : ∀ q ∈ sh.live, Same s.mem s'.mem q (sh.width q)
  allocs : s'.a.allocs = int64 (s.a.allocs + 1)
  frame : Frame s sh s' sh' True

/-- The outcome of an attempt to add a page of `n` bytes for the class `log`. -/
inductive NewPage (s : Machine) (sh : Shape) (ans : MmapAnswer) (log n : ℕ) :
    ℕ × Err × Machine → Prop
  | failed (e : Errno) (s' : Machine) (hrefused : ans.Refused) (good : Good s' sh)
      (hext : ∀ x, (s.mem x).isSome = true → s'.mem x = s.mem x)
      (hclean : ans.head = true → ans.tail = true → s'.mem = s.mem)
      (hallocs : s'.a.allocs = s.a.allocs) : NewPage s sh ans log n (0, some e, s')
  | added (b : ℕ) (s' : Machine) (good : Good s' (sh.addPage b ⟨log, 0, n⟩)) (hnot : b ∉ sh.pages)
      (hext : ∀ x, (s.mem x).isSome = true → s'.mem x = s.mem x)
      (hframe : Frame s sh s' (sh.addPage b ⟨log, 0, n⟩) True)
      (hallocs : s'.a.allocs = s.a.allocs) (hcurrent : log ≠ 0 → s'.a.pages log = b) :
      NewPage s sh ans log n (b, none, s')

/-- The memory outside the pages, when a page comes. -/
theorem Frame.addPage {m : Mem} {a' : Allocator} {n : ℕ} (hrange : Range s.mem m b n)
    (hn : 32 ≤ n) (hnot : b ∉ sh.pages) :
    Frame s sh ⟨newHeader m b n log, a'⟩ (sh.addPage b ⟨log, 0, n⟩) True := by
  have hown : ∀ x, (sh.addPage b ⟨log, 0, n⟩).Own x ↔ (b ≤ x ∧ x < b + n) ∨ sh.Own x := by
    intro x
    have hself : (sh.addPage b ⟨log, 0, n⟩).info b = ⟨log, 0, n⟩ := setAt_self _ _ _
    have hold : ∀ {c}, c ∈ sh.pages → (sh.addPage b ⟨log, 0, n⟩).info c = sh.info c :=
      fun hc => setAt_of_ne fun heq => hnot (heq ▸ hc)
    constructor
    · rintro ⟨c, hc, hin⟩
      obtain rfl | hc := Finset.mem_insert.1 hc
      · rw [hself] at hin
        exact .inl hin
      · rw [hold hc] at hin
        exact .inr ⟨c, hc, hin⟩
    · rintro (hin | ⟨c, hc, hin⟩)
      · exact ⟨b, Finset.mem_insert_self _ _, by rwa [hself]⟩
      · exact ⟨c, Finset.mem_insert_of_mem hc, by rwa [hold hc]⟩
  refine ⟨fun x hx hx' => ⟨hrange.newHeader_ext hn x hx, ?_⟩, fun _ x hx => ?_⟩
  · rw [hown]
    rintro (hin | hin)
    · rw [(hrange.new x hin.1 hin.2).1] at hx
      cases hx
    · exact hx' hin
  · rw [hown, or_assoc]
    by_cases hin : b ≤ x ∧ x < b + n
    · exact .inl hin
    · dsimp only at hx
      rw [hrange.newHeader_old hn hin] at hx
      exact .inr ((Classical.em (sh.Own x)).imp_right fun h => ⟨hx, h⟩)

/-- The memory outside the pages, when no page comes. -/
theorem Frame.of_failed {s' : Machine}
    (hext : ∀ x, (s.mem x).isSome = true → s'.mem x = s.mem x)
    (hclean : ans.head = true → ans.tail = true → s'.mem = s.mem) :
    Frame s sh s' sh (ans.head = true ∧ ans.tail = true) := by
  refine ⟨fun x hx hown => ⟨hext x hx, hown⟩, fun hc x hx => ?_⟩
  rw [hclean hc.1 hc.2] at hx
  exact (Classical.em (sh.Own x)).imp_right fun h => ⟨hx, h⟩

/-- The state after the method `mmap` gave the page at `b`. -/
def mapped (s : Machine) (m : Mem) (b n : ℕ) : Machine where
  mem := putInt m (b + 16) n
  a := { s.a with
    mmaps := int64 (s.a.mmaps + 1)
    bytes := int64 (s.a.bytes + n)
    regs := insert b s.a.regs }

/-- The method `mmap`: an error, or a page of which the header has the size. -/
theorem mmap_method {size : ℕ} (s : Machine) (hsize : size < 2 ^ 62 + 2 ^ 21) (hlo : 24 ≤ size)
    (hlegal : Legal os s.mem (os.roundup size + 2 ^ 20) ans) :
    (∃ e m, s.mmap os size ans = .ok (0, some e, { s with mem := m }) ∧ ans.Refused ∧
      (∀ x, (s.mem x).isSome = true → m x = s.mem x) ∧
      (ans.head = true → ans.tail = true → m = s.mem)) ∨
    ∃ b m, s.mmap os size ans = .ok (b, none, mapped s m b (os.roundup size)) ∧
      0 < b ∧ 2 ^ 20 ∣ b ∧ b + os.roundup size ≤ 2 ^ 47 ∧ Range s.mem m b (os.roundup size) := by
  have hle := os.le_roundup size
  obtain ⟨r, hrun, hr⟩ := mmap_spec hsize hlegal
  cases hr with
  | failed e m hrefused hold hclean =>
      refine .inl ⟨e, m, ?_, hrefused, hold, hclean⟩
      rw [Machine.mmap, hrun, ok_bind]
      rfl
  | mapped b m hpos haligned hhigh hnew hold =>
      refine .inr ⟨b, m, ?_, hpos, haligned, hhigh, hnew, hold⟩
      have hmap : Mapped m (b + 16) 8 :=
        (Range.mapped ⟨hnew, hold⟩).mono (by omega) (by omega)
      rw [Machine.mmap, hrun, ok_bind]
      dsimp only
      rw [storeInt_eq hmap, deref_some]
      rfl

/-- The class in the header is stored after that. -/
theorem store_class {m : Mem} {n : ℕ} (hrange : Range s.mem m b n) (hn : 32 ≤ n) :
    store64 (mapped s m b n).mem (b + 8) log = some (newHeader m b n log) := by
  have hmap : Mapped m (b + 16) 8 := hrange.mapped.mono (by omega) (by omega)
  have hmap' : Mapped m (b + 8) 8 := hrange.mapped.mono (by omega) (by omega)
  exact store64_eq (hmap'.put64 hmap) log

/-- **A page for one block.** -/
theorem newPage_spec {size : ℕ} (g : Good s sh) (hlo : 16 ≤ size) (hhi : size ≤ 2 ^ 62)
    (hlegal : Legal os s.mem (os.roundup (size + 32) + 2 ^ 20) ans) :
    ∃ r, s.newPage os size ans = .ok r ∧ NewPage s sh ans 0 (os.roundup (size + 32)) r := by
  have hle := os.le_roundup (size + 32)
  have hadd : int64 ((size : ℤ) + headerSize) = ((size + 32 : ℕ) : ℤ) := by
    rw [headerSize_eq]
    exact int64_of_fits (by omega) (by omega)
  unfold Machine.newPage
  rw [hadd]
  obtain ⟨e, m, hrun, hrefused, hext, hclean⟩ | ⟨b, m, hrun, hpos, haligned, hhigh, hrange⟩ :=
    mmap_method s (by omega) (by omega) hlegal
  · rw [hrun, ok_bind]
    exact ⟨_, rfl, .failed e _ hrefused (g.of_extends hext) hext hclean rfl⟩
  · rw [hrun, ok_bind]
    dsimp only
    rw [store_class hrange (by omega), deref_some, ok_bind]
    have hfits : PageInfo.Fits ⟨0, 0, os.roundup (size + 32)⟩ b :=
      ⟨hpos, haligned, hhigh, fun _ => by dsimp only; omega, fun h => absurd rfl h,
        Nat.zero_le 18, fun h => absurd rfl h, fun h => absurd rfl h, fun h => absurd rfl h⟩
    refine ⟨_, rfl, .added b _ ?_ (hrange.not_page g (by omega)) (hrange.newHeader_ext (by omega))
      (.addPage hrange (by omega) (hrange.not_page g (by omega))) rfl fun h => absurd rfl h⟩
    exact addPage_good g hfits hrange rfl (fun _ => .inr rfl) (fun h => absurd rfl h)
      (fun l _ => .inl rfl) rfl rfl rfl

theorem tdiv_slots (hlog : log ≤ 62) : pageAvail.tdiv (shl 1 log) = slots log := by
  rw [shl_one hlog, pageAvail_eq]
  exact Int.ofNat_tdiv 1048544 (2 ^ log)

/-- The number of slots of a class is computed once. -/
theorem Good.setCap (g : Good s sh) (hlog : log ≤ 18) :
    Good { s with a := { s.a with cap := setAt s.a.cap log (slots log) } } sh := by
  have hcap : ∀ l, setAt s.a.cap log (slots log : ℤ) l = s.a.cap l ∨
      (l ≤ 18 ∧ setAt s.a.cap log (slots log : ℤ) l = slots l) := by
    intro l
    by_cases hl : l = log
    · rw [hl, setAt_self]
      exact .inr ⟨hlog, rfl⟩
    · exact .inl (setAt_of_ne hl)
  refine ⟨g.placed, g.mapped, g.header, g.lists, g.current, fun c hc hne => ?_, fun l => ?_,
    g.regs, g.mmaps, g.bytes⟩
  · obtain heq | ⟨-, heq⟩ := hcap (sh.info c).log
    · exact heq.trans (g.cap c hc hne)
    · exact heq
  · obtain heq | heq := hcap l
    · dsimp only
      rw [heq]
      exact g.cap_eq l
    · exact .inr heq

/-- **A page for the slots of a class.** -/
theorem newSharedPage_spec (g : Good s sh) (hlo : 4 ≤ log) (hhi : log ≤ 18)
    (hlegal : Legal os s.mem (os.roundup (32 + slots log * 2 ^ log) + 2 ^ 20) ans) :
    ∃ r, s.newSharedPage os log ans = .ok r ∧
      NewPage s sh ans log (os.roundup (32 + slots log * 2 ^ log)) r := by
  have hmul := slots_mul_le log
  have hle := os.le_roundup (32 + slots log * 2 ^ log)
  have hsmall : os.roundup (32 + slots log * 2 ^ log) ≤ 2 ^ 20 :=
    Os.roundup_le (by omega) (Nat.pow_dvd_pow 2 os.pageBits_le)
  have hne : log ≠ 0 := by omega
  have hcap : (if s.a.cap log = 0 then pageAvail.tdiv (shl 1 log) else s.a.cap log) =
      (slots log : ℤ) := by
    obtain hzero | ⟨-, hold⟩ := g.cap_eq log
    · rw [if_pos hzero, tdiv_slots (by omega)]
    · rw [hold, tdiv_slots (by omega), ite_id]
  have hcast : (slots log : ℤ) * 2 ^ log = ((slots log * 2 ^ log : ℕ) : ℤ) := by
    rw [Int.natCast_mul, Int.natCast_pow]
    rfl
  have hsize : int64 (headerSize + shl (slots log) log) = ((32 + slots log * 2 ^ log : ℕ) : ℤ) := by
    have hshl : shl (slots log) log = ((slots log * 2 ^ log : ℕ) : ℤ) := by
      rw [shl, hcast]
      exact int64_of_fits (by omega) (by omega)
    rw [hshl, headerSize_eq]
    exact int64_of_fits (by omega) (by omega)
  have g₁ := g.setCap hhi
  unfold Machine.newSharedPage
  rw [checkIndex_of_le hhi, ok_bind, hcap]
  dsimp only
  rw [hsize]
  generalize hs₁ : ({ s with a := { s.a with cap := setAt s.a.cap log (slots log) } } : Machine) = s₁
    at g₁
  have hmem₁ : s₁.mem = s.mem := by rw [← hs₁]
  rw [← hmem₁] at hlegal
  obtain ⟨e, m, hrun, hrefused, hext, hclean⟩ | ⟨b, m, hrun, hpos, haligned, hhigh, hrange⟩ :=
    mmap_method s₁ (by omega) (by omega) hlegal
  · rw [hrun, ok_bind]
    refine ⟨_, rfl, .failed e _ hrefused (g₁.of_extends hext) ?_ ?_ ?_⟩
    · rwa [hmem₁] at hext
    · rwa [hmem₁] at hclean
    · rw [← hs₁]
  · rw [hrun, ok_bind]
    dsimp only
    rw [store_class hrange (by omega), deref_some, ok_bind]
    have hfits : PageInfo.Fits ⟨log, 0, os.roundup (32 + slots log * 2 ^ log)⟩ b :=
      ⟨hpos, haligned, hhigh, fun h => absurd h hne, fun _ => hlo, hhi, fun _ => Nat.zero_le _,
        fun _ => hle, fun _ => hsmall⟩
    refine ⟨_, rfl, .added b _ ?_ (hrange.not_page g₁ (by omega)) ?_ ?_ ?_ ?_⟩
    · refine addPage_good g₁ hfits hrange rfl (fun _ => .inr rfl) (fun _ => ?_) (fun l _ => ?_) rfl
        rfl rfl
      · rw [← hs₁]
        exact setAt_self _ _ _
      · by_cases hl : l = log
        · exact .inr ⟨hl, hne, by rw [hl]; exact setAt_self _ _ _⟩
        · exact .inl (setAt_of_ne hl)
    · rw [← hmem₁]
      exact hrange.newHeader_ext (by omega)
    · exact .of_mem hmem₁ (.addPage hrange (by omega) (hrange.not_page g₁ (by omega)))
    · rw [← hs₁]
      rfl
    · exact fun _ => setAt_self _ _ _

/-- A state between `s` and the end of `UintptrMalloc`, with a slot of the class to give. -/
structure Ready (s : Machine) (sh : Shape) (log : ℕ) (s₁ : Machine) (sh₁ : Shape) : Prop where
  good : Good s₁ sh₁
  live : sh₁.live = sh.live
  width : ∀ q ∈ sh.live, sh₁.width q = sh.width q
  same : ∀ q ∈ sh.live, Same s.mem s₁.mem q (sh.width q)
  allocs : s₁.a.allocs = int64 (s.a.allocs + 1)
  frame : Frame s sh s₁ sh₁ True
  slot : s₁.a.pages log ≠ 0 ∨ s₁.a.lists log ≠ 0
  busy : ∀ c ∈ sh₁.pages, c ≠ s₁.a.pages log → 0 < sh₁.used c

/-- **A slot is given out.** -/
theorem takeSlot_spec {s₁ : Machine} {sh₁ : Shape} (h : Ready s sh log s₁ sh₁) :
    ∃ p s' sh', s₁.takeSlot log = .ok (p, s') ∧ Given s sh (2 ^ log) p s' sh' := by
  have g := h.good
  have hbusy := h.busy
  unfold Machine.takeSlot
  by_cases hpage : s₁.a.pages log ≠ 0
  · -- from the untouched end of the page
    obtain ⟨hb, hlog, hne, hbrk⟩ := g.current log hpage
    obtain ⟨s', hrun, hallocs, ht, g'⟩ := bump_spec g hpage
    rw [if_pos hpage, hrun]
    generalize s₁.a.pages log = b at *
    subst hlog
    have hnew := g.placed.next_not_block hb hne hbrk
    have hpageOf := g.placed.pageOf_next hb hne hbrk
    have hfresh : slot b (sh₁.info b).log (sh₁.info b).brk ∉ sh₁.live := fun hlive =>
      hnew (g.placed.live_block _ hlive)
    refine ⟨_, s', sh₁.grow b, rfl, g', fun c hc => ?_, h.live ▸ hfresh, ?_, ?_, fun q hq => ?_,
      fun q hq => ?_, hallocs.trans h.allocs, ?_⟩
    · have hcount : (sh₁.grow b).used c = sh₁.used c + if b = c then 1 else 0 := by
        have hinsert := Shape.used_insert hfresh c
        rwa [hpageOf] at hinsert
      rw [hcount]
      by_cases hcb : b = c
      · rw [if_pos hcb]
        omega
      · have := hbusy c hc (Ne.symm hcb)
        omega
    · show insert _ sh₁.live = _
      rw [h.live]
    · rw [Shape.grow_width, Shape.width, hpageOf, PageInfo.width_of_shared hne]
    · rw [Shape.grow_width]
      exact h.width q hq
    · have hsame := ht.same_block g.placed (fun d hd => by rwa [Set.mem_singleton_iff.1 hd])
        (fun n hn => absurd hn (Set.notMem_empty n)) (g.placed.live_block q (h.live ▸ hq))
        (Set.notMem_empty q)
      rw [h.width q hq] at hsame
      exact (h.same q hq).trans hsame
    · have hframe : Frame s₁ sh₁ s' (sh₁.grow b) True :=
        .of_touches g ht (fun d hd => by rwa [Set.mem_singleton_iff.1 hd])
          (fun n hn => absurd hn (Set.notMem_empty n)) rfl fun c => (Shape.grow_info sh₁ b c).2
      exact (h.frame.trans hframe).mono fun _ => ⟨trivial, trivial⟩
  · -- from the free list
    have hlist := h.slot.resolve_left hpage
    obtain ⟨s', hrun, hallocs, hfree, ht, g'⟩ := pop_spec g hlist
    rw [if_neg hpage, hrun]
    generalize s₁.a.lists log = n at *
    obtain ⟨hblock, hfresh, hlog, hne⟩ := (g.placed.mem_free log n).1 hfree
    refine ⟨n, s', sh₁.take n log, rfl, g', fun c hc => ?_, h.live ▸ hfresh, ?_, ?_, h.width,
      fun q hq => ?_, hallocs.trans h.allocs, ?_⟩
    · have hcount := Shape.used_insert hfresh c
      have hpos : 0 < sh₁.used c := by
        refine hbusy c hc ?_
        rw [not_not.1 hpage]
        exact Nat.ne_of_gt (g.placed.fits c hc).pos
      unfold Shape.used at hpos ⊢
      dsimp only [Shape.take]
      omega
    · show insert _ sh₁.live = _
      rw [h.live]
    · show (sh₁.info (pageOf n)).width = _
      rw [PageInfo.width_of_shared (by rwa [hlog]), hlog]
    · have hsame := ht.same_block g.placed
        (fun d hd => by rw [Set.mem_singleton_iff.1 hd]; exact hblock.1)
        (fun m hm => g.placed.block_of_free hm) (g.placed.live_block q (h.live ▸ hq))
        fun hm => g.placed.not_live_of_free hm (h.live ▸ hq)
      rw [h.width q hq] at hsame
      exact (h.same q hq).trans hsame
    · have hframe : Frame s₁ sh₁ s' (sh₁.take n log) True :=
        .of_touches g ht (fun d hd => by rw [Set.mem_singleton_iff.1 hd]; exact hblock.1)
          (fun m hm => g.placed.block_of_free hm) rfl fun _ => rfl
      exact (h.frame.trans hframe).mono fun _ => ⟨trivial, trivial⟩

/-- Blocks that were there keep their size. -/
theorem addPage_width {info : PageInfo} {q : ℕ} (hnot : b ∉ sh.pages) (hq : sh.Block q) :
    (sh.addPage b info).width q = sh.width q := by
  have hinfo : (sh.addPage b info).info (pageOf q) = sh.info (pageOf q) :=
    setAt_of_ne fun heq => hnot (heq ▸ hq.1)
  unfold Shape.width
  rw [hinfo]

/-- A class has a slot to give, or there is an error. -/
theorem refill_spec (s : Machine) {s₀ : Machine} (g₀ : Good s₀ sh) (hmem : s₀.mem = s.mem)
    (hallocs : s₀.a.allocs = int64 (s.a.allocs + 1)) (hbusy : sh.Busy) (hlo : 4 ≤ log)
    (hhi : log ≤ 18)
    (hlegal : Legal os s.mem (os.roundup (32 + slots log * 2 ^ log) + 2 ^ 20) ans) :
    (∃ e s', s₀.refill os log ans = .ok (0, some e, s') ∧ Failed s sh ans s') ∨
      ∃ b s₁ sh₁, s₀.refill os log ans = .ok (b, none, s₁) ∧ Ready s sh log s₁ sh₁ := by
  unfold Machine.refill
  by_cases hempty : s₀.a.lists log = 0 ∧ s₀.a.pages log = 0
  · rw [if_pos hempty]
    rw [← hmem] at hlegal
    obtain ⟨r, hrun, hr⟩ := newSharedPage_spec g₀ hlo hhi hlegal
    rw [hrun]
    have hsame : ∀ {s' : Machine}, (∀ x, (s₀.mem x).isSome = true → s'.mem x = s₀.mem x) →
        ∀ q ∈ sh.live, Same s.mem s'.mem q (sh.width q) := by
      intro s' hext q hq
      rw [← hmem]
      exact same_of_extends hext (g₀.mapped_block (g₀.placed.live_block q hq))
    cases hr with
    | failed e s' hrefused good hext hclean hallocs' =>
        exact .inl ⟨e, s', rfl, hrefused, good, hsame hext, hallocs'.trans hallocs,
          .of_mem hmem (.of_failed hext hclean)⟩
    | added b s' good hnot hext hframe hallocs' hcurrent =>
        have hpos := (good.placed.fits b (Finset.mem_insert_self _ _)).pos
        have hcur := hcurrent (by omega)
        refine .inr ⟨b, s', _, rfl, good, rfl,
          fun q hq => addPage_width hnot (g₀.placed.live_block q hq), hsame hext,
          hallocs'.trans hallocs, .of_mem hmem hframe, .inl (by omega), fun c hc hne => ?_⟩
        obtain rfl | hc := Finset.mem_insert.1 hc
        · exact absurd hcur.symm hne
        · exact hbusy c hc
  · rw [if_neg hempty]
    refine .inr ⟨0, s₀, sh, rfl, g₀, rfl, fun _ _ => rfl, fun q _ => ?_, hallocs,
      .refl_of_mem hmem, ?_, fun c hc _ => hbusy c hc⟩
    · rw [hmem]
      exact Same.refl _ _ _
    · rw [← not_and_or, and_comm]
      exact hempty

/-- The block of a new page of one block. -/
theorem Good.take_dedicated (g : Good s sh) (hb : b ∈ sh.pages) (hlog : (sh.info b).log = 0)
    (hnew : b + 32 ∉ sh.live) : Good s (sh.take (b + 32) 0) := by
  obtain ⟨hblock, hpage⟩ := g.placed.block_of_mem hb (.inl ⟨hlog, rfl⟩)
  have hfree : sh.free 0 = [] := by
    refine List.eq_nil_iff_forall_not_mem.2 fun q hq => ?_
    exact ((g.placed.mem_free 0 q).1 hq).2.2.2 rfl
  have hfree' : (sh.take (b + 32) 0).free = sh.free := by
    funext l
    by_cases hl : l = 0
    · have herase : (sh.take (b + 32) 0).free 0 = (sh.free 0).erase (b + 32) :=
        setAt_self sh.free 0 _
      rw [hl, herase, hfree]
      rfl
    · exact setAt_of_ne hl
  refine ⟨g.placed.take hblock (by rw [hpage, hlog]) (g.lists 0).nodup, g.mapped, fun c hc => ?_,
    fun l => by rw [hfree']; exact g.lists l, g.current, g.cap, g.cap_eq, g.regs, g.mmaps, g.bytes⟩
  obtain ⟨hlog', hsize, hbrk, hused⟩ := g.header c hc
  refine ⟨hlog', hsize, hbrk, fun hne => ?_⟩
  have hcount : (sh.take (b + 32) 0).used c = sh.used c + if pageOf (b + 32) = c then 1 else 0 :=
    Shape.used_insert hnew c
  have hcb : b ≠ c := fun heq => hne (by rw [← hlog, heq]; rfl)
  rw [hcount, hpage, if_neg hcb]
  exact hused hne

/-- **`UintptrMalloc`.** -/
theorem uintptrMalloc_spec {size : ℕ} (g : Good s sh) (hbusy : sh.Busy) (hpos : 0 < size)
    (hle : size ≤ 2 ^ 62) (hlegal : Legal os s.mem (asked os size) ans) :
    (∃ e s', s.uintptrMalloc os size ans = .ok (0, some e, s') ∧ Failed s sh ans s') ∨
      ∃ p s' sh', s.uintptrMalloc os size ans = .ok (p, none, s') ∧
        Given s sh (usable os size) p s' sh' := by
  have g₀ := g.setAllocs (int64 (s.a.allocs + 1))
  have hlog := sizeLog_le hpos hle
  have hfour := four_le_sizeLog hpos hle
  unfold Machine.uintptrMalloc
  rw [if_neg (by omega), if_neg (by omega)]
  dsimp only
  unfold asked at hlegal
  unfold usable
  by_cases hshared : sizeLog size ≤ 18
  · -- a slot of the class
    rw [if_pos hshared] at hlegal ⊢
    rw [if_neg (Int.not_lt.2 ((shl_one_le_maxSlotSize hlog).2 hshared)), checkIndex_of_le hshared,
      ok_bind]
    obtain ⟨e, s', hrun, hfailed⟩ | ⟨b, s₁, sh₁, hrun, hready⟩ :=
      refill_spec s g₀ rfl rfl hbusy hfour hshared hlegal
    · rw [hrun, ok_bind]
      exact .inl ⟨e, s', rfl, hfailed⟩
    · obtain ⟨p, s', sh', htake, hgiven⟩ := takeSlot_spec hready
      rw [hrun, ok_bind]
      dsimp only
      rw [htake, ok_bind]
      exact .inr ⟨p, s', sh', rfl, hgiven⟩
  · -- a page for this block
    rw [if_neg hshared] at hlegal ⊢
    have hlarge : 16 ≤ size := by
      have hlt : 4 < Nat.size ((size + 15) / 16 * 16 - 1) := by
        rw [← sizeLog_eq hpos hle]
        omega
      have := Nat.lt_size.1 hlt
      omega
    have hbig : shl 1 (sizeLog size) > maxSlotSize :=
      Int.not_le.1 fun h => hshared ((shl_one_le_maxSlotSize hlog).1 h)
    rw [if_pos hbig]
    obtain ⟨r, hrun, hr⟩ := newPage_spec g₀ hlarge hle hlegal
    rw [hrun, ok_bind]
    have hsame : ∀ {s' : Machine}, (∀ x, (s.mem x).isSome = true → s'.mem x = s.mem x) →
        ∀ q ∈ sh.live, Same s.mem s'.mem q (sh.width q) := fun hext q hq =>
      same_of_extends hext (g.mapped_block (g.placed.live_block q hq))
    cases hr with
    | failed e s' hrefused good hext hclean hallocs =>
        exact .inl ⟨e, s', rfl, hrefused, good, hsame hext, hallocs, .of_failed hext hclean⟩
    | added b s' good hnot hext hframe hallocs _ =>
        have hn := os.le_roundup (size + 32)
        generalize os.roundup (size + 32) = n at *
        have hb : b ∈ (sh.addPage b ⟨0, 0, n⟩).pages := Finset.mem_insert_self _ _
        have hself : (sh.addPage b ⟨0, 0, n⟩).info b = ⟨0, 0, n⟩ := setAt_self _ _ _
        have hhigh := (good.placed.fits b hb).high
        have hpage : pageOf (b + 32) = b :=
          (good.placed.block_of_mem hb (.inl ⟨by rw [hself], rfl⟩)).2
        have hfresh : b + 32 ∉ sh.live := fun hlive =>
          hnot (hpage ▸ (g.placed.live_block _ hlive).1)
        have haddr : uint64 ((b : ℤ) + headerSize) = b + 32 := by
          rw [headerSize_eq]
          exact uint64_natCast (n := b + 32) (by omega)
        refine .inr ⟨b + 32, s', (sh.addPage b ⟨0, 0, n⟩).take (b + 32) 0, ?_,
          good.take_dedicated hb (by rw [hself]) hfresh, fun c hc => ?_, hfresh, rfl, ?_,
          fun q hq => addPage_width hnot (g.placed.live_block q hq), hsame hext, hallocs,
          ⟨hframe.foreign, hframe.tight⟩⟩
        · dsimp only
          rw [haddr]
          rfl
        · have hcount := Shape.used_insert hfresh c
          rw [hpage] at hcount
          obtain rfl | hc := Finset.mem_insert.1 hc
          · rw [if_pos rfl] at hcount
            exact Nat.lt_of_lt_of_eq (Nat.succ_pos _) hcount.symm
          · have hused := hbusy c hc
            unfold Shape.used at hused ⊢
            dsimp only [Shape.take, Shape.addPage]
            omega
        · show ((sh.addPage b ⟨0, 0, n⟩).info (pageOf (b + 32))).width = _
          rw [hpage, hself, PageInfo.width_of_dedicated rfl]

end Alloc
