import GoExperiments.Alloc.Invariant

/-!
# Slots

One slot is given out, from the untouched end of a page (`bump_spec`) or from the free list of its
class (`pop_spec`), and one is given back (`push_spec`).  Each of these keeps the invariant, for the
shape it leaves.
-/

namespace Alloc

open ByteMemory Go

@[simp] theorem deref_some {α : Type} (x : α) : deref (some x) = .ok x := rfl

theorem ok_bind {α β : Type} (x : α) (f : α → Except Crash β) : (Except.ok x >>= f) = f x := rfl

theorem checkIndex_of_le {log : ℕ} (h : log ≤ 18) : checkIndex log = .ok () := if_pos (by omega)

theorem addField_eq {m : Mem} {addr : ℕ} {v d : ℤ} (hv : loadInt m addr = some v)
    (hm : Mapped m addr 8) : addField m addr d = .ok (putInt m addr (v + d)) := by
  rw [addField, hv, deref_some, ok_bind, storeInt_eq hm, deref_some]

theorem setPrev_eq {m : Mem} {n : ℕ} (hm : n ≠ 0 → Mapped m n 16) (v : ℕ) :
    setPrev m n v = .ok (if n = 0 then m else put64 m n v) := by
  unfold setPrev
  by_cases hzero : n = 0
  · rw [if_neg (not_not.2 hzero), if_pos hzero]
  · rw [if_pos hzero, if_neg hzero, store64_eq ((hm hzero).mono (Nat.le_refl n) (by omega)),
      deref_some]

/-! ## Headers -/

namespace Header

variable {m : Mem} {b : ℕ} {info : PageInfo} {used : ℕ}

theorem setUsed (h : Header m b info used) {n : ℕ} (hn : n < 2 ^ 63) :
    Header (putInt m (b + 24) n) b info n := by
  have hsame : ∀ k, k ≤ 16 → Same m (putInt m (b + 24) n) (b + k) 8 := by
    intro k hk
    exact same_put64 (.inl (by omega))
  exact ⟨(load64_congr (hsame 8 (by omega))).trans h.log_eq,
    (loadInt_congr (hsame 16 (by omega))).trans h.size_eq,
    fun hlog => (loadInt_congr (hsame 0 (by omega))).trans (h.brk_eq hlog),
    fun _ => loadInt_putInt_self (by omega) (by omega) m (b + 24)⟩

theorem setBrk (h : Header m b info used) {n : ℕ} (hn : n < 2 ^ 63) :
    Header (putInt m b n) b { info with brk := n } used := by
  have hsame : ∀ k, 8 ≤ k → Same m (putInt m b n) (b + k) 8 := by
    intro k hk
    exact same_put64 (.inr (by omega))
  exact ⟨(load64_congr (hsame 8 (by omega))).trans h.log_eq,
    (loadInt_congr (hsame 16 (by omega))).trans h.size_eq,
    fun _ => loadInt_putInt_self (by omega) (by omega) m b,
    fun hlog => (loadInt_congr (hsame 24 (by omega))).trans (h.used_eq hlog)⟩

end Header

variable {s : Machine} {sh : Shape} {b p log : ℕ}

theorem slots_mul_le (log : ℕ) : slots log * 2 ^ log ≤ 1048544 := Nat.div_mul_le_self _ _

/-- The code's address of a slot. -/
theorem slot_addr {i : ℕ} (hb : b + 2 ^ 20 ≤ 2 ^ 48) (hi : i < slots log) :
    uint64 ((b : ℤ) + (headerSize + shl i log)) = slot b log i := by
  have hmul : i * 2 ^ log ≤ slots log * 2 ^ log := Nat.mul_le_mul_right _ (Nat.le_of_lt hi)
  have hle := slots_mul_le log
  have hcast : (i : ℤ) * 2 ^ log = ((i * 2 ^ log : ℕ) : ℤ) := by
    rw [Int.natCast_mul, Int.natCast_pow]
    rfl
  have hshl : shl i log = ((i * 2 ^ log : ℕ) : ℤ) := by
    rw [shl, hcast]
    exact int64_of_fits (by omega) (by omega)
  rw [hshl, headerSize_eq,
    show (b : ℤ) + (32 + ((i * 2 ^ log : ℕ) : ℤ)) = ((b + 32 + i * 2 ^ log : ℕ) : ℤ) by omega]
  exact uint64_natCast (by omega)

/-- A page of slots is not at the end of the address space. -/
theorem Good.base_le (g : Good s sh) (hb : b ∈ sh.pages) : b + 2 ^ 20 ≤ 2 ^ 48 := by
  have := (g.placed.fits b hb).high
  omega

theorem Good.used_le (g : Good s sh) (b : ℕ) : sh.used b < 2 ^ 62 := by
  have hsub : sh.live.filter (fun p => pageOf p = b) ⊆ Finset.range (2 ^ 47) := by
    intro q hq
    exact Finset.mem_range.2 (g.placed.lt_two_pow (g.placed.live_block q (Finset.mem_filter.1 hq).1))
  have hcard := Finset.card_le_card hsub
  rw [Finset.card_range] at hcard
  exact Nat.lt_of_le_of_lt hcard (by decide)

/-- A store to a field of a header. -/
theorem Touches.of_field {m : Mem} {k : ℕ} {z : ℤ} (nodes : Set ℕ) (hm : Mapped m (b + k) 8)
    (hk : k ≤ 24) : Touches m (putInt m (b + k) z) {b} nodes :=
  .of_put64 hm (.inl ⟨b, Set.mem_singleton b, by omega, by omega⟩)

/-- An operation on the slots of the page at `b`: the other pages stay, and what has to be shown is
about this page, the free lists, and the pages that still have slots to give. -/
theorem Good.of_touches {s' : Machine} {sh' : Shape} {nodes : Set ℕ} (g : Good s sh)
    (hb : b ∈ sh.pages) (t : Touches s.mem s'.mem {b} nodes) (hnodes : ∀ n ∈ nodes, sh.Block n)
    (ha : s'.a.cap = s.a.cap ∧ s'.a.regs = s.a.regs ∧ s'.a.mmaps = s.a.mmaps ∧
      s'.a.bytes = s.a.bytes)
    (hpages : sh'.pages = sh.pages)
    (hinfo : ∀ c, (sh'.info c).log = (sh.info c).log ∧ (sh'.info c).size = (sh.info c).size)
    (hother : ∀ c, c ≠ b → sh'.info c = sh.info c ∧ sh'.used c = sh.used c)
    (hplaced : sh'.Placed) (hheader : Header s'.mem b (sh'.info b) (sh'.used b))
    (hlists : ∀ log, LinkedList.IsList (loadNode s'.mem) (s'.a.lists log) (sh'.free log))
    (hcurrent : ∀ log, s'.a.pages log ≠ 0 → s'.a.pages log = s.a.pages log ∧
      (s.a.pages log = b → (sh'.info b).brk < slots log)) :
    Good s' sh' := by
  obtain ⟨hcap, hregs, hmmaps, hbytes⟩ := ha
  refine ⟨hplaced, fun c hc => ?_, fun c hc => ?_, hlists, fun log hlog => ?_, fun c hc => ?_,
    ?_, ?_, ?_, ?_⟩
  · rw [(hinfo c).2]
    exact t.mapped (g.mapped c (hpages ▸ hc))
  · by_cases hcb : c = b
    · rw [hcb]
      exact hheader
    · have hc' : c ∈ sh.pages := hpages ▸ hc
      have hsame := t.same_header g.placed (fun d hd => by rwa [Set.mem_singleton_iff.1 hd]) hnodes
        hc' hcb
      rw [(hother c hcb).1, (hother c hcb).2]
      exact (g.header c hc').congr hsame
  · obtain ⟨heq, hbrk⟩ := hcurrent log hlog
    obtain ⟨hmem, hlog', hne, hlt⟩ := g.current log (heq ▸ hlog)
    rw [heq, hpages, (hinfo _).1]
    refine ⟨hmem, hlog', hne, ?_⟩
    by_cases hcb : s.a.pages log = b
    · rw [hcb]
      exact hbrk hcb
    · rw [(hother _ hcb).1]
      exact hlt
  · rw [(hinfo c).1, hcap]
    exact g.cap c (hpages ▸ hc)
  · rw [hcap]
    exact g.cap_eq
  · rw [hregs, hpages]
    exact g.regs
  · rw [hmmaps, hpages]
    exact g.mmaps
  · rw [hbytes, hpages, g.bytes]
    congr 1
    exact Finset.sum_congr rfl fun c _ => (hinfo c).2.symm

/-- A free list of which no node was stored to. -/
theorem Good.list_congr {m' : Mem} {headers nodes : Set ℕ} (g : Good s sh)
    (t : Touches s.mem m' headers nodes) (hheaders : ∀ b ∈ headers, b ∈ sh.pages)
    (hnodes : ∀ n ∈ nodes, sh.Block n) (hnot : ∀ q ∈ sh.free log, q ∉ nodes) :
    LinkedList.IsList (loadNode m') (s.a.lists log) (sh.free log) := by
  refine (g.lists log).congr fun q hq => loadNode_congr ?_
  have hblock := g.placed.block_of_free hq
  have hwidth := g.placed.sixteen_le_width hblock
  have hsame := t.same_block g.placed hheaders hnodes hblock (hnot q hq)
  exact hsame.mono (Nat.le_refl q) (by omega)

/-! ## The next slot of a page -/

/-- What the code does to a page of slots, by its header. -/
theorem bump_eq {info : PageInfo} {used : ℕ} (h : Header s.mem b info used)
    (hmap : Mapped s.mem b 32) (hne : info.log ≠ 0) (hused : used < 2 ^ 62)
    (hbrk : info.brk < 2 ^ 62) :
    s.bump info.log b = .ok (uint64 ((b : ℤ) + (headerSize + shl info.brk info.log)), {
      mem := putInt (putInt s.mem (b + 24) ((used + 1 : ℕ) : ℤ)) b ((info.brk + 1 : ℕ) : ℤ)
      a := { s.a with
        pages :=
          if ((info.brk + 1 : ℕ) : ℤ) = s.a.cap info.log then setAt s.a.pages info.log 0
          else s.a.pages } }) := by
  have h₁ := h.setUsed (n := used + 1) (by omega)
  have h₂ := h₁.setBrk (n := info.brk + 1) (by omega)
  have hmap₁ : Mapped s.mem (b + 24) 8 := hmap.mono (by omega) (by omega)
  have hmap₂ : Mapped (putInt s.mem (b + 24) ((used + 1 : ℕ) : ℤ)) b 8 :=
    Mapped.put64 (hmap.mono (Nat.le_refl b) (by omega)) hmap₁
  have hcast : (used : ℤ) + 1 = ((used + 1 : ℕ) : ℤ) := rfl
  have hcast' : (info.brk : ℤ) + 1 = ((info.brk + 1 : ℕ) : ℤ) := rfl
  have hlast : ((info.brk + 1 : ℕ) : ℤ) - 1 = (info.brk : ℤ) := by omega
  rw [Machine.bump, addField_eq (h.used_eq hne) hmap₁, ok_bind, hcast,
    addField_eq (h₁.brk_eq hne) hmap₂, ok_bind, hcast', h₂.brk_eq hne, deref_some, ok_bind, hlast]
  rfl

/-- **A slot that was never given out.** -/
theorem bump_spec (g : Good s sh) (hpage : s.a.pages log ≠ 0) :
    ∃ s', s.bump log (s.a.pages log) =
        .ok (slot (s.a.pages log) log (sh.info (s.a.pages log)).brk, s') ∧
      s'.a.allocs = s.a.allocs ∧ Touches s.mem s'.mem {s.a.pages log} ∅ ∧
      Good s' (sh.grow (s.a.pages log)) := by
  obtain ⟨hb, hlog, hne, hbrk⟩ := g.current log hpage
  obtain ⟨b, hbdef⟩ : ∃ b, s.a.pages log = b := ⟨_, rfl⟩
  rw [hbdef] at hb hlog hbrk ⊢
  subst hlog
  have hfits := g.placed.fits b hb
  have hheader := g.header b hb
  have hused := g.used_le b
  have hslots : slots (sh.info b).log < 2 ^ 62 := by
    have := Nat.div_le_self 1048544 (2 ^ (sh.info b).log)
    unfold slots
    omega
  -- the two stores
  have hheader₁ := hheader.setUsed (n := sh.used b + 1) (by omega)
  have hheader₂ := hheader₁.setBrk (n := (sh.info b).brk + 1) (by omega)
  have hmap₁ : Mapped s.mem (b + 24) 8 := g.mapped_field hb (by omega)
  have hmap₂ : Mapped (putInt s.mem (b + 24) ((sh.used b + 1 : ℕ) : ℤ)) b 8 :=
    (g.mapped_field hb (k := 0) (by omega)).put64 hmap₁
  have ht : Touches s.mem (putInt (putInt s.mem (b + 24) ((sh.used b + 1 : ℕ) : ℤ)) b
      (((sh.info b).brk + 1 : ℕ) : ℤ)) {b} ∅ :=
    (Touches.of_field ∅ hmap₁ (by omega)).trans (Touches.of_field ∅ (k := 0) hmap₂ (by omega))
  have haddr := slot_addr (g.base_le hb) hbrk
  have hnew : slot b (sh.info b).log (sh.info b).brk ∉ sh.live := fun hlive =>
    g.placed.next_not_block hb hne hbrk (g.placed.live_block _ hlive)
  have hcount : ∀ c, (sh.grow b).used c = sh.used c + if b = c then 1 else 0 := by
    intro c
    have hinsert := Shape.used_insert hnew c
    rwa [g.placed.pageOf_next hb hne hbrk] at hinsert
  have hrun := bump_eq hheader (g.mapped_header hb) hne hused (by omega)
  rw [haddr] at hrun
  refine ⟨_, hrun, rfl, ht, ?_⟩
  refine g.of_touches hb ht (fun n hn => absurd hn (Set.notMem_empty n)) ⟨rfl, rfl, rfl, rfl⟩ rfl
    (Shape.grow_info sh b) (fun c hc => ⟨Shape.grow_info_of_ne hc, ?_⟩)
    (g.placed.grow hb hne hbrk) ?_ (fun log => ?_) (fun log hlog => ?_)
  · rw [hcount, if_neg (Ne.symm hc), Nat.add_zero]
  · rw [Shape.grow_info_self, hcount, if_pos rfl]
    exact hheader₂
  · exact g.list_congr ht (fun d hd => by rwa [Set.mem_singleton_iff.1 hd])
      (fun n hn => absurd hn (Set.notMem_empty n)) fun q _ => Set.notMem_empty q
  · have hclass : s.a.pages log = b → s.a.pages log ≠ 0 → log = (sh.info b).log := by
      intro hlogb hzero
      have hlog' := (g.current log hzero).2.1
      rw [hlogb] at hlog'
      exact hlog'.symm
    simp only [Shape.grow_info_self, g.cap b hb hne] at hlog ⊢
    split_ifs at hlog ⊢ with hfull
    · have hother : log ≠ (sh.info b).log := fun heq => hlog (by rw [heq, setAt_self])
      rw [setAt_of_ne hother] at hlog ⊢
      exact ⟨rfl, fun hlogb => absurd (hclass hlogb hlog) hother⟩
    · refine ⟨rfl, fun hlogb => ?_⟩
      rw [hclass hlogb hlog]
      omega

/-! ## Free slots -/

/-- A store to a header changes no node. -/
theorem loadNode_field {m : Mem} {k q : ℕ} {z : ℤ} (h : sh.Placed) (hb : b ∈ sh.pages)
    (hm : Mapped m (b + k) 8) (hk : k ≤ 24) (hq : sh.Block q) :
    loadNode (putInt m (b + k) z) q = loadNode m q := by
  have hsame := (Touches.of_field (z := z) ∅ hm hk).same_block h
    (fun d hd => by rwa [Set.mem_singleton_iff.1 hd]) (fun n hn => absurd hn (Set.notMem_empty n))
    hq (Set.notMem_empty q)
  have hwidth := h.sixteen_le_width hq
  exact loadNode_congr (hsame.mono (Nat.le_refl q) (by omega))

theorem Good.nodes {nodes : Set ℕ} (g : Good s sh) (hnodes : ∀ n ∈ nodes, sh.Block n) :
    Nodes s.mem nodes :=
  ⟨fun n hn => g.mapped_node (hnodes n hn),
    fun x hx y hy => g.placed.nodes_apart (hnodes x hx) (hnodes y hy),
    fun n hn => Nat.lt_trans (g.placed.lt_two_pow (hnodes n hn)) (by decide)⟩

/-- **A slot from the free list.** -/
theorem pop_spec (g : Good s sh) (hlist : s.a.lists log ≠ 0) :
    ∃ s', s.pop log = .ok (s.a.lists log, s') ∧ s'.a.allocs = s.a.allocs ∧
      s.a.lists log ∈ sh.free log ∧
      Touches s.mem s'.mem {pageOf (s.a.lists log)} {q | q ∈ sh.free log} ∧
      Good s' (sh.take (s.a.lists log) log) := by
  have hisList := g.lists log
  obtain ⟨n, hn⟩ : ∃ n, s.a.lists log = n := ⟨_, rfl⟩
  rw [hn] at hisList hlist ⊢
  obtain ⟨rest, hfree⟩ := hisList.eq_cons hlist
  have hnfree : n ∈ sh.free log := by rw [hfree]; exact List.mem_cons_self
  obtain ⟨hblock, hnlive, hlog, hne⟩ := (g.placed.mem_free log n).1 hnfree
  have hb := hblock.1
  have hnodes : ∀ q ∈ {q | q ∈ sh.free log}, sh.Block q := fun q hq => g.placed.block_of_free hq
  have hall := g.nodes hnodes
  -- the links of the first node, and the memory after it was taken out
  rw [hfree] at hisList
  have hfirst : LinkedList.IsList (loadNode s.mem) n ([] ++ n :: rest) := hisList
  have hlinks : loadNode s.mem n = some ⟨0, rest.headD 0⟩ := hfirst.links_eq
  obtain ⟨hprev, hnext⟩ := hisList.links_mem List.mem_cons_self hlinks
  rw [← hfree] at hprev hnext
  have ht₁ := touches_unlinkMem hall hprev hnext {pageOf n}
  have hmem : setPrev s.mem (rest.headD 0) 0 = .ok (unlinkMem s.mem ⟨0, rest.headD 0⟩) := by
    rw [setPrev_eq fun hzero => hall.mapped _ (hnext hzero)]
    rfl
  -- the count of the page
  have hsame : Same s.mem (unlinkMem s.mem ⟨0, rest.headD 0⟩) (pageOf n) 32 :=
    (touches_unlinkMem hall hprev hnext ∅).same_header g.placed
      (fun c hc => absurd hc (Set.notMem_empty c)) hnodes hb (Set.notMem_empty _)
  have hheader := (g.header _ hb).congr hsame
  have hused := g.used_le (pageOf n)
  have hheader' := hheader.setUsed (n := sh.used (pageOf n) + 1) (by omega)
  have hmap : Mapped (unlinkMem s.mem ⟨0, rest.headD 0⟩) (pageOf n + 24) 8 :=
    ht₁.mapped (g.mapped_field hb (by omega))
  have ht := ht₁.trans (Touches.of_field (z := ((sh.used (pageOf n) + 1 : ℕ) : ℤ)) _ hmap (by omega))
  have hlog0 : (sh.info (pageOf n)).log ≠ 0 := by rwa [hlog]
  have hcount : ∀ c, (sh.take n log).used c = sh.used c + if pageOf n = c then 1 else 0 :=
    Shape.used_insert hnlive
  have hrun : s.pop log = .ok (n, {
      mem := putInt (unlinkMem s.mem ⟨0, rest.headD 0⟩) (pageOf n + 24)
        ((sh.used (pageOf n) + 1 : ℕ) : ℤ)
      a := { s.a with lists := setAt s.a.lists log (rest.headD 0) } }) := by
    rw [Machine.pop, hn, (loadNode_eq_some_iff.1 hlinks).2, deref_some, ok_bind, hmem, ok_bind,
      addField_eq (hheader.used_eq hlog0) hmap]
    rfl
  refine ⟨_, hrun, rfl, hnfree, ht, ?_⟩
  refine g.of_touches hb ht hnodes ⟨rfl, rfl, rfl, rfl⟩ rfl (fun c => ⟨rfl, rfl⟩)
    (fun c hc => ⟨rfl, ?_⟩) (g.placed.take hblock hlog (g.lists log).nodup) ?_ (fun l => ?_)
    (fun l hl => ⟨rfl, fun hlb => ?_⟩)
  · rw [hcount, if_neg (Ne.symm hc), Nat.add_zero]
  · rw [hcount, if_pos rfl]
    exact hheader'
  · by_cases hl : l = log
    · subst hl
      have hlists : setAt s.a.lists l (rest.headD 0) l = rest.headD 0 := setAt_self _ _ _
      have hfree' : (sh.take n l).free l = rest := by
        have herase : (sh.take n l).free l = (sh.free l).erase n := setAt_self _ _ _
        rw [herase, hfree, List.erase_cons_head]
      rw [hfree']
      dsimp only
      rw [hlists]
      refine hisList.unlink_first.congr fun q hq => ?_
      have hq' : q ∈ sh.free l := by rw [hfree]; exact List.mem_cons_of_mem _ hq
      rw [loadNode_field g.placed hb hmap (by omega) (hnodes q hq'),
        loadNode_unlinkMem hall hprev hnext hq']
    · have hlists : setAt s.a.lists log (rest.headD 0) l = s.a.lists l := setAt_of_ne hl
      have hfree' : (sh.take n log).free l = sh.free l := setAt_of_ne hl
      rw [hfree']
      dsimp only
      rw [hlists]
      exact g.list_congr ht (fun d hd => by rwa [Set.mem_singleton_iff.1 hd]) hnodes
        fun q hq hq' => hl (g.placed.class_unique hq hq')
  · have hcur := g.current l hl
    rw [hlb] at hcur
    exact hcur.2.2.2

/-- **A slot is given back.** -/
theorem push_spec (g : Good s sh) (hp : p ∈ sh.live) (hlog : (sh.info (pageOf p)).log = log)
    (hne : log ≠ 0) :
    ∃ s' mem, s.push log p = .ok s' ∧ addField s'.mem (pageOf p + 24) (-1) = .ok mem ∧
      s'.a.allocs = s.a.allocs ∧ s'.a.pages = s.a.pages ∧
      Touches s.mem mem {pageOf p} (insert p {q | q ∈ sh.free log}) ∧
      Good { s' with mem := mem } (sh.give p log) := by
  have hblock := g.placed.live_block p hp
  have hb := hblock.1
  have hfits := g.placed.fits _ hb
  have hnodes : ∀ q ∈ insert p {q | q ∈ sh.free log}, sh.Block q := by
    rintro q (rfl | hq)
    · exact hblock
    · exact g.placed.block_of_free hq
  have hall := g.nodes hnodes
  have hpmem : p ∈ insert p {q | q ∈ sh.free log} := Set.mem_insert p _
  have hpfree : p ∉ sh.free log := fun hmem => g.placed.not_live_of_free hmem hp
  have hhead : s.a.lists log ≠ 0 → s.a.lists log ∈ insert p {q | q ∈ sh.free log} := by
    intro hzero
    obtain ⟨rest, hfree⟩ := (g.lists log).eq_cons hzero
    refine Set.mem_insert_of_mem _ ?_
    rw [hfree]
    exact List.mem_cons_self
  -- the stores to the links
  have ht₁ := touches_pushMem hall hpmem hhead {pageOf p}
  have hpush : s.push log p = .ok {
      mem := pushMem s.mem (s.a.lists log) p
      a := { s.a with lists := setAt s.a.lists log p } } := by
    have hmap := hall.mapped p hpmem
    have hput := hall.putPrev hpmem ∅ 0
    have hput' := hput.trans ((hall.touches hput).putNext hpmem ∅ (s.a.lists log))
    rw [Machine.push, store64_eq (hmap.mono (Nat.le_refl p) (by omega)), deref_some, ok_bind,
      checkIndex_of_le (by have := hfits.class_le; omega), ok_bind]
    dsimp only
    rw [store64_eq ((hput.mapped hmap).mono (by omega) (by omega)), deref_some, ok_bind,
      setPrev_eq fun hzero => hput'.mapped (hall.mapped _ (hhead hzero))]
    rfl
  -- the count of the page
  have hsame : Same s.mem (pushMem s.mem (s.a.lists log) p) (pageOf p) 32 :=
    (touches_pushMem hall hpmem hhead ∅).same_header g.placed
      (fun c hc => absurd hc (Set.notMem_empty c)) hnodes hb (Set.notMem_empty _)
  have hheader := (g.header _ hb).congr hsame
  have hused := g.used_le (pageOf p)
  have hlog0 : (sh.info (pageOf p)).log ≠ 0 := by rwa [hlog]
  have hcount : ∀ c, sh.used c = (sh.give p log).used c + if pageOf p = c then 1 else 0 :=
    Shape.used_erase hp
  have hself : sh.used (pageOf p) = (sh.give p log).used (pageOf p) + 1 := by
    rw [hcount, if_pos rfl]
  have hmap : Mapped (pushMem s.mem (s.a.lists log) p) (pageOf p + 24) 8 :=
    ht₁.mapped (g.mapped_field hb (by omega))
  have hfield : addField (pushMem s.mem (s.a.lists log) p) (pageOf p + 24) (-1) =
      .ok (putInt (pushMem s.mem (s.a.lists log) p) (pageOf p + 24)
        ((sh.give p log).used (pageOf p))) := by
    rw [addField_eq (hheader.used_eq hlog0) hmap, hself]
    congr 2
    omega
  have hheader' := hheader.setUsed (n := (sh.give p log).used (pageOf p)) (by omega)
  have ht := ht₁.trans (Touches.of_field (z := ((sh.give p log).used (pageOf p) : ℤ)) _ hmap
    (by omega))
  refine ⟨_, _, hpush, hfield, rfl, rfl, ht, ?_⟩
  refine g.of_touches hb ht hnodes ⟨rfl, rfl, rfl, rfl⟩ rfl (fun c => ⟨rfl, rfl⟩)
    (fun c hc => ⟨rfl, ?_⟩) (g.placed.give hp hlog hne) hheader' (fun l => ?_)
    (fun l hl => ⟨rfl, fun hlb => ?_⟩)
  · rw [hcount c, if_neg (Ne.symm hc), Nat.add_zero]
  · by_cases hl : l = log
    · subst hl
      have hlists : setAt s.a.lists l p l = p := setAt_self _ _ _
      have hfree : (sh.give p l).free l = p :: sh.free l := setAt_self _ _ _
      rw [hfree]
      dsimp only
      rw [hlists]
      refine ((g.lists l).push (g.placed.ne_zero hblock) hpfree).congr fun q hq => ?_
      have hq' : q ∈ insert p {q | q ∈ sh.free l} := List.mem_cons.1 hq
      rw [loadNode_field g.placed hb hmap (by omega) (hnodes q hq'),
        loadNode_pushMem hall hpmem hhead hq']
    · have hlists : setAt s.a.lists log p l = s.a.lists l := setAt_of_ne hl
      have hfree : (sh.give p log).free l = sh.free l := setAt_of_ne hl
      rw [hfree]
      dsimp only
      rw [hlists]
      refine g.list_congr ht (fun d hd => by rwa [Set.mem_singleton_iff.1 hd]) hnodes ?_
      rintro q hq (rfl | hq')
      · exact g.placed.not_live_of_free hq hp
      · exact hl (g.placed.class_unique hq hq')
  · have hcur := g.current l hl
    rw [hlb] at hcur
    exact hcur.2.2.2

end Alloc
