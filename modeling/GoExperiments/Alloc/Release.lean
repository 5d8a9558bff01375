import GoExperiments.Alloc.Slots

/-!
# Pages given back

When the client has no block of a page any more, all of its slots are in the free list of their
class.  `UintptrFree` takes them out, one after the other and wherever in the list they are
(`unlinkSlots_spec`), and unmaps the page (`releasePage_spec`).
-/

namespace Alloc

open ByteMemory Go

variable {s : Machine} {sh : Shape} {b p log : ℕ}

theorem setAt_eq_self {β : Type} (f : ℕ → β) (i : ℕ) : setAt f i (f i) = f := by
  funext j
  by_cases hj : j = i
  · rw [hj, setAt_self]
  · exact setAt_of_ne hj

/-! ## One node -/

/-- One turn of the loop. -/
theorem unlinkNode_eq {nodes : Set ℕ} {ns : List ℕ} {n : ℕ} (hall : Nodes s.mem nodes)
    (hlist : LinkedList.IsList (loadNode s.mem) (s.a.lists log) ns) (hsub : ∀ q ∈ ns, q ∈ nodes)
    (hn : n ∈ ns) :
    ∃ l, loadNode s.mem n = some l ∧ s.unlinkNode log n = .ok {
      mem := unlinkMem s.mem l
      a := { s.a with
        lists := setAt s.a.lists log (LinkedList.unlinkHead (s.a.lists log) l) } } := by
  obtain ⟨l, hl⟩ := exists_loadNode (hall.mapped n (hsub n hn))
  obtain ⟨hprev, hnext⟩ := hlist.links_mem hn hl
  obtain ⟨hloadp, hloadn⟩ := loadNode_eq_some_iff.1 hl
  refine ⟨l, hl, ?_⟩
  unfold Machine.unlinkNode unlinkMem LinkedList.unlinkHead
  rw [hloadp, deref_some, ok_bind, hloadn, deref_some, ok_bind]
  by_cases hp : l.prev = 0
  · rw [if_pos hp, if_pos hp, if_pos hp,
      setPrev_eq fun hzero => hall.mapped _ (hsub _ (hnext hzero))]
    rfl
  · have hmapp := hall.mapped _ (hsub _ (hprev hp))
    have hstore : ∀ v, store64 s.mem (l.prev + 8) v = some (put64 s.mem (l.prev + 8) v) :=
      store64_eq (hmapp.mono (by omega) (by omega))
    rw [if_neg hp, if_neg hp, if_neg hp, setAt_eq_self]
    by_cases hz : l.next = 0
    · rw [if_pos hz, if_pos hz, hstore, deref_some]
      rfl
    · -- the node is not its own neighbour, so that its links are as before
      have ht := hall.putNext (hsub _ (hprev hp)) ∅ l.next
      have hsame : loadNode (put64 s.mem (l.prev + 8) l.next) n = some l := by
        rw [hall.loadNode_putNext (hsub _ (hprev hp)) (hsub n hn)
          (hall.lt _ (hsub _ (hnext hz))), LinkedList.setNext_of_ne (hlist.prev_ne hn hl hp), hl]
      obtain ⟨hloadp', hloadn'⟩ := loadNode_eq_some_iff.1 hsame
      have hmapn := ht.mapped (hall.mapped _ (hsub _ (hnext hz)))
      rw [if_neg hz, if_neg hz, hstore, deref_some, ok_bind, hloadn', deref_some, ok_bind, hloadp',
        deref_some, ok_bind, store64_eq (hmapn.mono (Nat.le_refl _) (by omega)), deref_some]
      rfl

/-! ## All slots of a page -/

theorem setAt_setAt {β : Type} (f : ℕ → β) (i : ℕ) (v w : β) :
    setAt (setAt f i v) i w = setAt f i w := by
  funext j
  by_cases hj : j = i
  · rw [hj, setAt_self, setAt_self]
  · rw [setAt_of_ne hj, setAt_of_ne hj, setAt_of_ne hj]

/-- None of the first `i` slots of the page. -/
def NotFirst (b log i q : ℕ) : Prop := ∀ j < i, q ≠ slot b log j

instance (b log i q : ℕ) : Decidable (NotFirst b log i q) := Nat.decidableBallLT i _

/-- The state `s₁` of the loop after `i` turns: of the state `s` before the loop, only the free list
of the class has changed, and it has lost the first `i` slots. -/
structure Unlinked (s : Machine) (sh : Shape) (b log i : ℕ) (s₁ : Machine) : Prop where
  a_eq : s₁.a = { s.a with lists := setAt s.a.lists log (s₁.a.lists log) }
  list : LinkedList.IsList (loadNode s₁.mem) (s₁.a.lists log)
    ((sh.free log).filter fun q => NotFirst b log i q)
  touches : Touches s.mem s₁.mem ∅ {q | q ∈ sh.free log}

theorem unlinked_zero (g : Good s sh) : Unlinked s sh b log 0 s := by
  refine ⟨?_, ?_, .refl _ _ _⟩
  · rw [setAt_eq_self]
  · have hall : (sh.free log).filter (fun q => NotFirst b log 0 q) = sh.free log := by
      refine List.filter_eq_self.2 fun q _ => decide_eq_true ?_
      exact fun j hj => absurd hj (Nat.not_lt_zero j)
    rw [hall]
    exact g.lists log

/-- The free slots without the next one. -/
theorem filter_notFirst_succ {ns : List ℕ} (b log i : ℕ) :
    ns.filter (fun q => NotFirst b log (i + 1) q) =
      (ns.filter fun q => NotFirst b log i q).filter fun q => q ≠ slot b log i := by
  rw [List.filter_filter]
  refine List.filter_congr fun q _ => ?_
  rw [← Bool.decide_and]
  refine decide_eq_decide.2 ⟨fun h => ⟨h i (Nat.lt_succ_self i), fun j hj => h j (by omega)⟩, ?_⟩
  rintro ⟨hlast, h⟩ j hj
  obtain hlt | rfl := Nat.lt_succ_iff_lt_or_eq.1 hj
  · exact h j hlt
  · exact hlast

theorem filter_ne_of_nodup {pre post : List ℕ} {n : ℕ} (h : (pre ++ n :: post).Nodup) :
    (pre ++ n :: post).filter (fun q => q ≠ n) = pre ++ post := by
  obtain ⟨-, hpost, hdisj⟩ := List.nodup_append.1 h
  have hpre : pre.filter (fun q => q ≠ n) = pre :=
    List.filter_eq_self.2 fun q hq => decide_eq_true (hdisj q hq n List.mem_cons_self)
  have hrest : post.filter (fun q => q ≠ n) = post :=
    List.filter_eq_self.2 fun q hq => decide_eq_true fun heq =>
      (List.nodup_cons.1 hpost).1 (heq ▸ hq)
  rw [List.filter_append, hpre, List.filter_cons_of_neg (by simp), hrest]

/-- One turn. -/
theorem Unlinked.step {s₁ : Machine} {i : ℕ} (g : Good s sh) (h : Unlinked s sh b log i s₁)
    (hmem : slot b log i ∈ sh.free log) :
    ∃ s₂, s₁.unlinkNode log (slot b log i) = .ok s₂ ∧ Unlinked s sh b log (i + 1) s₂ := by
  have hblocks : ∀ q ∈ {q | q ∈ sh.free log}, sh.Block q := fun q hq => g.placed.block_of_free hq
  have hall := (g.nodes hblocks).touches h.touches
  have hsub : ∀ q ∈ (sh.free log).filter (fun q => NotFirst b log i q), q ∈ sh.free log :=
    fun q hq => List.mem_of_mem_filter hq
  have hn : slot b log i ∈ (sh.free log).filter (fun q => NotFirst b log i q) := by
    refine List.mem_filter.2 ⟨hmem, decide_eq_true fun j hj heq => ?_⟩
    have := Shape.slot_injective b log heq
    omega
  obtain ⟨l, hl, hrun⟩ := unlinkNode_eq hall h.list hsub hn
  obtain ⟨hprev, hnext⟩ := h.list.links_mem hn hl
  have hprev' := fun hzero => hsub _ (hprev hzero)
  have hnext' := fun hzero => hsub _ (hnext hzero)
  refine ⟨_, hrun, ?_, ?_, h.touches.trans (touches_unlinkMem hall hprev' hnext' ∅)⟩
  · dsimp only
    rw [h.a_eq, setAt_self, setAt_setAt]
  · dsimp only
    rw [setAt_self]
    obtain ⟨pre, post, hsplit⟩ := List.append_of_mem hn
    have hlist := h.list
    rw [hsplit] at hlist
    have hnodup := hlist.nodup
    have hrest : (sh.free log).filter (fun q => NotFirst b log (i + 1) q) = pre ++ post := by
      rw [filter_notFirst_succ, hsplit, filter_ne_of_nodup hnodup]
    rw [hrest]
    refine (hlist.unlink hl).congr fun q hq => ?_
    refine loadNode_unlinkMem hall hprev' hnext' (hsub q ?_)
    rw [hsplit]
    obtain hq | hq := List.mem_append.1 hq
    · exact List.mem_append_left _ hq
    · exact List.mem_append_right _ (List.mem_cons_of_mem _ hq)

/-- **The loop takes all slots of the page out of the free list.** -/
theorem unlinkSlots_spec {s₁ : Machine} {i : ℕ} (g : Good s sh) (hb : b ∈ sh.pages)
    (hlog : (sh.info b).log = log) (hne : log ≠ 0)
    (hfree : ∀ j < (sh.info b).brk, slot b log j ∈ sh.free log) (fuel : ℕ)
    (hfuel : (sh.info b).brk < i + fuel) (hi : i ≤ (sh.info b).brk) (h : Unlinked s sh b log i s₁) :
    ∃ s₂, Machine.unlinkSlots log b fuel i s₁ = .ok s₂ ∧
      Unlinked s sh b log (sh.info b).brk s₂ := by
  induction fuel generalizing i s₁ with
  | zero => omega
  | succ fuel ih =>
      have hsame := h.touches.same_header g.placed (fun c hc => absurd hc (Set.notMem_empty c))
        (fun q hq => g.placed.block_of_free hq) hb (Set.notMem_empty b)
      have hbrk := ((g.header b hb).congr hsame).brk_eq (by rwa [hlog])
      rw [Machine.unlinkSlots, hbrk, deref_some, ok_bind]
      by_cases hlt : i < (sh.info b).brk
      · have hslots := (g.placed.fits b hb).brk_le (by rwa [hlog])
        rw [hlog] at hslots
        obtain ⟨s₂, hrun, h₂⟩ := h.step g (hfree i hlt)
        rw [if_pos (by omega), slot_addr (g.base_le hb) (by omega), hrun, ok_bind]
        exact ih (i := i + 1) (by omega) hlt h₂
      · have hend : i = (sh.info b).brk := by omega
        rw [if_neg (by omega)]
        exact ⟨s₁, rfl, hend ▸ h⟩

/-! ## The page -/

theorem used_dropPage {c : ℕ} (hne : c ≠ b) : (sh.dropPage b).used c = sh.used c := by
  unfold Shape.used Shape.dropPage
  rw [Finset.filter_filter]
  congr 1
  refine Finset.filter_congr fun q _ => ⟨fun h => h.2, fun h => ⟨fun heq => hne ?_, h⟩⟩
  rw [← h, heq]

/-- **A page is unmapped**, after its slots have left the free lists. -/
theorem releasePage_spec (s₂ : Machine) {nodes : Set ℕ} (g : Good s sh) (hb : b ∈ sh.pages)
    (t : Touches s.mem s₂.mem ∅ nodes) (hnodes : ∀ n ∈ nodes, sh.Block n)
    (ha : s₂.a.cap = s.a.cap ∧ s₂.a.regs = s.a.regs ∧ s₂.a.mmaps = s.a.mmaps ∧
      s₂.a.bytes = s.a.bytes)
    (hlists : ∀ l, LinkedList.IsList (loadNode s₂.mem) (s₂.a.lists l) ((sh.dropPage b).free l))
    (hpages : ∀ l, s₂.a.pages l ≠ 0 → s₂.a.pages l = s.a.pages l ∧ s.a.pages l ≠ b) (ok : Bool) :
    ∃ err s', s₂.releasePage b ok = .ok (err, s') ∧ (ok = true → err = none) ∧
      s'.a.allocs = s₂.a.allocs ∧
      s'.mem = (if ok then fill s₂.mem b (sh.info b).size none else s₂.mem) ∧
      Good s' (sh.dropPage b) := by
  obtain ⟨hcap, hregs, hmmaps, hbytes⟩ := ha
  have hempty : ∀ c ∈ (∅ : Set ℕ), c ∈ sh.pages := fun c hc => absurd hc (Set.notMem_empty c)
  have hheader : ∀ c ∈ sh.pages, Header s₂.mem c (sh.info c) (sh.used c) := fun c hc =>
    (g.header c hc).congr (t.same_header g.placed hempty hnodes hc (Set.notMem_empty c))
  have hrun : s₂.releasePage b ok = .ok (if ok then none else some .munmap, {
      mem := if ok then fill s₂.mem b (sh.info b).size none else s₂.mem
      a := { s₂.a with
        bytes := int64 (s₂.a.bytes - (sh.info b).size)
        regs := s₂.a.regs.erase b
        mmaps := int64 (s₂.a.mmaps - 1) } }) := by
    rw [Machine.releasePage, (hheader b hb).size_eq, deref_some, ok_bind]
    dsimp only
    rw [Machine.unmap, (hheader b hb).size_eq, deref_some, ok_bind]
    cases ok <;> rfl
  refine ⟨_, _, hrun, fun hok => if_pos hok, rfl, rfl, ?_⟩
  -- the rest of the memory is as it was
  have hsame : ∀ a n, Apart a n b (sh.info b).size →
      Same s₂.mem (if ok then fill s₂.mem b (sh.info b).size none else s₂.mem) a n := by
    intro a n hapart
    cases ok with
    | true => exact same_fill none hapart
    | false => exact Same.refl _ _ _
  have hplaced := g.placed.dropPage b
  have hfew := g.placed.card_pages_le
  have hsmall := g.placed.sum_size_le
  have hcard : (sh.pages.erase b).card + 1 = sh.pages.card := Finset.card_erase_add_one hb
  have hsum : ∑ c ∈ sh.pages.erase b, (sh.info c).size + (sh.info b).size =
      ∑ c ∈ sh.pages, (sh.info c).size := Finset.sum_erase_add _ _ hb
  refine ⟨hplaced, fun c hc => ?_, fun c hc => ?_, fun l => ?_, fun l hl => ?_, fun c hc => ?_, ?_,
    ?_, ?_, ?_⟩
  · obtain ⟨hne, hc⟩ := Finset.mem_erase.1 hc
    exact (t.mapped (g.mapped c hc)).congr (hsame _ _ (g.placed.apart c hc b hb hne))
  · obtain ⟨hne, hc⟩ := Finset.mem_erase.1 hc
    have hle := g.placed.header_le hc
    rw [used_dropPage hne]
    refine (hheader c hc).congr (hsame _ _ ?_)
    exact (g.placed.apart c hc b hb hne).mono (by omega) (by omega) (by omega) (by omega)
  · refine (hlists l).congr fun q hq => loadNode_congr (hsame _ _ ?_)
    have hblock := hplaced.block_of_free hq
    obtain ⟨hne, hpage⟩ := Finset.mem_erase.1 hblock.1
    have hinside := hplaced.inside hblock
    have hwidth := hplaced.sixteen_le_width hblock
    exact (g.placed.apart _ hpage b hb hne).mono (by omega) (by
      show q + 16 ≤ pageOf q + ((sh.dropPage b).info (pageOf q)).size
      omega) (by omega) (by omega)
  · obtain ⟨heq, hne⟩ := hpages l hl
    obtain ⟨hmem, hrest⟩ := g.current l (heq ▸ hl)
    dsimp only
    rw [heq]
    exact ⟨Finset.mem_erase.2 ⟨hne, hmem⟩, hrest⟩
  · dsimp only
    rw [hcap]
    exact g.cap c (Finset.mem_of_mem_erase hc)
  · dsimp only
    rw [hcap]
    exact g.cap_eq
  · dsimp only
    rw [hregs, g.regs]
    rfl
  · dsimp only [Shape.dropPage]
    rw [hmmaps, g.mmaps, int64_of_fits (by omega) (by omega)]
    omega
  · dsimp only [Shape.dropPage]
    rw [hbytes, g.bytes, int64_of_fits (by omega) (by omega)]
    omega

/-! ## `UintptrFree` -/

/-- The client has a block of every page. -/
def Shape.Busy (sh : Shape) : Prop := ∀ b ∈ sh.pages, 0 < sh.used b

theorem Shape.used_pos_iff : 0 < sh.used b ↔ ∃ q ∈ sh.live, pageOf q = b := by
  unfold Shape.used
  rw [Finset.card_pos]
  constructor
  · rintro ⟨q, hq⟩
    exact ⟨q, (Finset.mem_filter.1 hq).1, (Finset.mem_filter.1 hq).2⟩
  · rintro ⟨q, hq, hpage⟩
    exact ⟨q, Finset.mem_filter.2 ⟨hq, hpage⟩⟩

/-- The counter of allocations is of no consequence. -/
theorem Good.setAllocs (g : Good s sh) (n : ℤ) :
    Good { s with a := { s.a with allocs := n } } sh :=
  ⟨g.placed, g.mapped, g.header, g.lists, g.current, g.cap, g.cap_eq, g.regs, g.mmaps, g.bytes⟩

/-- What `UintptrFree` leaves: the client's other blocks, as they were. -/
structure Freed (s : Machine) (sh : Shape) (p : ℕ) (ok : Bool) (s' : Machine) (sh' : Shape) :
    Prop where
  good : Good s' sh'
  busy : sh'.Busy
  live : sh'.live = sh.live.erase p
  width : ∀ q ∈ sh'.live, sh'.width q = sh.width q
  same : ∀ q ∈ sh'.live, Same s.mem s'.mem q (sh.width q)
  allocs : s'.a.allocs = int64 (s.a.allocs - 1)
  frame : Frame s sh s' sh' (ok = true)

/-- The memory outside the pages, when a page goes. -/
theorem Frame.dropPage {m : Mem} {s' : Machine} {sh₁ : Shape} {nodes : Set ℕ} {ok : Bool}
    (g : Good s sh) (hb : b ∈ sh.pages) (t : Touches s.mem m {b} nodes)
    (hnodes : ∀ n ∈ nodes, sh.Block n) (hpages : sh₁.pages = sh.pages) (hinfo : sh₁.info = sh.info)
    (hmem : s'.mem = (if ok then fill m b (sh.info b).size none else m)) :
    Frame s sh s' (sh₁.dropPage b) (ok = true) := by
  have hown : ∀ x, (sh₁.dropPage b).Own x ↔
      ∃ c ∈ sh.pages, c ≠ b ∧ c ≤ x ∧ x < c + (sh.info c).size := by
    intro x
    unfold Shape.Own Shape.dropPage
    rw [hpages, hinfo]
    refine exists_congr fun c => ?_
    dsimp only
    rw [Finset.mem_erase]
    exact ⟨fun h => ⟨h.1.2, h.1.1, h.2⟩, fun h => ⟨⟨h.2.1, h.1⟩, h.2.2⟩⟩
  refine ⟨fun x hx hnot => ⟨?_, fun h => ?_⟩, fun hok x hx => ?_⟩
  · have heq := t.eq_of_not_own g.placed (fun d hd => by rwa [Set.mem_singleton_iff.1 hd]) hnodes
      hnot
    have hout : ¬ (b ≤ x ∧ x < b + (sh.info b).size) := fun hin => hnot ⟨b, hb, hin⟩
    rw [hmem]
    cases ok with
    | true => exact (fill_of_not_mem hout).trans heq
    | false => exact heq
  · obtain ⟨c, hc, -, hin⟩ := (hown x).1 h
    exact hnot ⟨c, hc, hin⟩
  · rw [hmem, hok, if_pos rfl] at hx
    by_cases hin : b ≤ x ∧ x < b + (sh.info b).size
    · rw [fill_of_mem hin] at hx
      cases hx
    · rw [fill_of_not_mem hin, t.isSome_eq] at hx
      by_cases hx' : sh.Own x
      · obtain ⟨c, hc, hxc⟩ := hx'
        exact .inl ((hown x).2 ⟨c, hc, fun heq => hin (heq ▸ hxc), hxc⟩)
      · exact .inr ⟨hx, hx'⟩

/-- The page of the block goes too. -/
theorem Freed.of_release {s₂ s' : Machine} {sh₁ : Shape} {nodes : Set ℕ} {ok : Bool}
    (g : Good s sh) (hbusy : sh.Busy) (hb : b ∈ sh.pages) (t : Touches s.mem s₂.mem {b} nodes)
    (hnodes : ∀ n ∈ nodes, sh.Block n ∧ n ∉ sh.live.erase p)
    (hpages : sh₁.pages = sh.pages) (hinfo : sh₁.info = sh.info)
    (hlive : ∀ q, q ∈ sh₁.live ∧ pageOf q ≠ b ↔ q ∈ sh.live.erase p)
    (hused : ∀ c, c ≠ b → sh₁.used c = sh.used c) (hallocs : s'.a.allocs = int64 (s.a.allocs - 1))
    (hmem : s'.mem = (if ok then fill s₂.mem b (sh.info b).size none else s₂.mem))
    (hgood : Good s' (sh₁.dropPage b)) : Freed s sh p ok s' (sh₁.dropPage b) := by
  have hlive' : ∀ q, q ∈ (sh₁.dropPage b).live ↔ q ∈ sh.live.erase p := by
    intro q
    rw [← hlive, Shape.dropPage, Finset.mem_filter]
  have hwidth : ∀ q, (sh₁.dropPage b).width q = sh.width q := by
    intro q
    unfold Shape.width Shape.dropPage
    rw [hinfo]
  refine ⟨hgood, fun c hc => ?_, Finset.ext hlive', fun q _ => hwidth q, fun q hq => ?_, hallocs,
    .dropPage g hb t (fun n hn => (hnodes n hn).1) hpages hinfo hmem⟩
  · obtain ⟨hne, hc⟩ := Finset.mem_erase.1 hc
    rw [used_dropPage hne, hused c hne]
    exact hbusy c (hpages ▸ hc)
  · have hblock := g.placed.live_block q (Finset.mem_of_mem_erase ((hlive' q).1 hq))
    have hsame := t.same_block g.placed (fun d hd => by rwa [Set.mem_singleton_iff.1 hd])
      (fun n hn => (hnodes n hn).1) hblock fun hn => (hnodes q hn).2 ((hlive' q).1 hq)
    have hne : pageOf q ≠ b := ((hlive q).2 ((hlive' q).1 hq)).2
    have hinside := g.placed.inside hblock
    have hapart : Apart q (sh.width q) b (sh.info b).size :=
      (g.placed.apart _ hblock.1 b hb hne).mono (by omega) (by omega) (by omega) (by omega)
    refine hsame.trans ?_
    rw [hmem]
    cases ok with
    | true => exact same_fill none hapart
    | false => exact Same.refl _ _ _

/-- A page of one block. -/
theorem free_dedicated (g : Good s sh) (hbusy : sh.Busy) (hp : p ∈ sh.live)
    (hlog : (sh.info (pageOf p)).log = 0) (ok : Bool) :
    ∃ err s' sh', s.uintptrFree p ok = .ok (err, s') ∧ (ok = true → err = none) ∧
      Freed s sh p ok s' sh' := by
  have hblock := g.placed.live_block p hp
  have hb := hblock.1
  have hp0 := g.placed.ne_zero hblock
  have g₁ := g.setAllocs (int64 (s.a.allocs - 1))
  have hempty : ∀ n ∈ (∅ : Set ℕ), sh.Block n := fun n hn => absurd hn (Set.notMem_empty n)
  -- no slot of the page is in a free list
  have hfree : ∀ l, (sh.dropPage (pageOf p)).free l = sh.free l := by
    intro l
    refine List.filter_eq_self.2 fun q hq => decide_eq_true fun heq => ?_
    obtain ⟨-, -, hl, hne⟩ := (g.placed.mem_free l q).1 hq
    rw [heq, hlog] at hl
    exact hne hl.symm
  have hcurrent : ∀ l, s.a.pages l ≠ 0 → s.a.pages l = s.a.pages l ∧ s.a.pages l ≠ pageOf p := by
    refine fun l hl => ⟨rfl, fun heq => ?_⟩
    obtain ⟨-, hl', hne, -⟩ := g.current l hl
    rw [heq, hlog] at hl'
    exact hne hl'.symm
  obtain ⟨err, s', hrun, herr, hallocs, hmem, hgood⟩ :=
    releasePage_spec _ g₁ hb (Touches.refl _ ∅ ∅) hempty ⟨rfl, rfl, rfl, rfl⟩
      (fun l => by rw [hfree]; exact g.lists l) hcurrent ok
  refine ⟨err, s', sh.dropPage (pageOf p), ?_, herr, ?_⟩
  · rw [Machine.uintptrFree, if_neg hp0]
    dsimp only
    rw [(g.header _ hb).log_eq, deref_some, ok_bind, if_pos hlog]
    exact hrun
  · refine .of_release g hbusy hb (Touches.refl s.mem _ ∅)
      (fun n hn => absurd hn (Set.notMem_empty n)) rfl rfl (fun q => ?_) (fun _ _ => rfl) hallocs
      hmem hgood
    rw [Finset.mem_erase, and_comm]
    refine and_congr_left fun hq => not_congr ⟨fun hpage => ?_, fun heq => heq ▸ rfl⟩
    -- the page has one block only
    have hq' := (g.placed.live_block q hq).2
    rw [hpage] at hq'
    obtain ⟨-, rfl⟩ | ⟨hne, -⟩ := hq'
    · obtain ⟨-, heq⟩ | ⟨hne, -⟩ := hblock.2
      · exact heq.symm
      · exact absurd hlog hne
    · exact absurd hlog hne

/-- All slots of a page of which the client has none are free. -/
theorem Good.slot_free (g : Good s sh) (hb : b ∈ sh.pages) (hne : (sh.info b).log ≠ 0)
    (hused : sh.used b = 0) (i : ℕ) (hi : i < (sh.info b).brk) :
    slot b (sh.info b).log i ∈ sh.free (sh.info b).log := by
  obtain ⟨hblock, hpage⟩ := g.placed.block_of_mem hb (.inr ⟨hne, i, hi, rfl⟩)
  refine (g.placed.mem_free _ _).2 ⟨hblock, fun hlive => ?_, by rw [hpage], hne⟩
  have hpos := Shape.used_pos_iff.2 ⟨_, hlive, hpage⟩
  omega

/-- The free list of the class without the slots of the page. -/
theorem Good.filter_notFirst (g : Good s sh) (hb : b ∈ sh.pages) :
    (sh.free (sh.info b).log).filter
        (fun q => NotFirst b (sh.info b).log (sh.info b).brk q) =
      (sh.dropPage b).free (sh.info b).log := by
  refine List.filter_congr fun q hq => decide_eq_decide.2 ?_
  obtain ⟨⟨-, hq⟩, -, hlog, hne⟩ := (g.placed.mem_free _ q).1 hq
  constructor
  · intro hnot hpage
    rw [hpage] at hq
    obtain ⟨hzero, -⟩ | ⟨-, i, hi, rfl⟩ := hq
    · exact hne hzero
    · exact hnot i hi rfl
  · rintro hpage i hi rfl
    exact hpage (g.placed.block_of_mem hb (.inr ⟨hne, i, hi, rfl⟩)).2

/-- **A page of which no slot is in use is unmapped.** -/
theorem releaseSlots_spec (g : Good s sh) (hb : b ∈ sh.pages) (hlog : (sh.info b).log = log)
    (hne : log ≠ 0) (hused : sh.used b = 0) (ok : Bool) :
    ∃ err s' m, s.releaseSlots log b ok = .ok (err, s') ∧ (ok = true → err = none) ∧
      s'.a.allocs = s.a.allocs ∧
      Touches s.mem m ∅ {q | q ∈ sh.free log} ∧
      s'.mem = (if ok then fill m b (sh.info b).size none else m) ∧ Good s' (sh.dropPage b) := by
  have hslot : ∀ j < (sh.info b).brk, slot b log j ∈ sh.free log := by
    intro j hj
    have hmem := g.slot_free hb (by rwa [hlog]) hused j hj
    rwa [hlog] at hmem
  have hbrk : (sh.info b).brk < 0 + 2 ^ 63 := by
    have hle := (g.placed.fits b hb).brk_le (by rwa [hlog])
    have := Nat.div_le_self 1048544 (2 ^ (sh.info b).log)
    unfold slots at hle
    omega
  obtain ⟨s₂, hloop, hun⟩ := unlinkSlots_spec g hb hlog hne hslot (2 ^ 63) hbrk (Nat.zero_le _)
    (unlinked_zero g)
  have hpages₂ : s₂.a.pages = s.a.pages := by rw [hun.a_eq]
  have hblocks : ∀ q ∈ {q | q ∈ sh.free log}, sh.Block q := fun q hq => g.placed.block_of_free hq
  have hlists : ∀ l, LinkedList.IsList (loadNode s₂.mem) (s₂.a.lists l)
      ((sh.dropPage b).free l) := by
    intro l
    by_cases hl : l = log
    · have hrest := g.filter_notFirst hb
      rw [hlog] at hrest
      rw [hl, ← hrest]
      exact hun.list
    · have hrest : (sh.dropPage b).free l = sh.free l := by
        refine List.filter_eq_self.2 fun q hq => decide_eq_true fun heq => hl ?_
        have hclass := ((g.placed.mem_free l q).1 hq).2.2.1
        rw [heq, hlog] at hclass
        exact hclass.symm
      have hhead : s₂.a.lists l = s.a.lists l := by rw [hun.a_eq]; exact setAt_of_ne hl
      rw [hrest, hhead]
      exact g.list_congr hun.touches (fun c hc => absurd hc (Set.notMem_empty c)) hblocks
        fun q hq hq' => hl (g.placed.class_unique hq hq')
  have hcurrent : ∀ l, (if s₂.a.pages log = b then setAt s₂.a.pages log 0 else s₂.a.pages) l ≠ 0 →
      (if s₂.a.pages log = b then setAt s₂.a.pages log 0 else s₂.a.pages) l = s.a.pages l ∧
        s.a.pages l ≠ b := by
    intro l hl
    have hclass : s.a.pages l = b → s.a.pages l ≠ 0 → l = log := by
      intro heq hzero
      have hl' := (g.current l hzero).2.1
      rw [heq, hlog] at hl'
      exact hl'.symm
    rw [hpages₂] at hl ⊢
    split_ifs at hl ⊢ with hcur
    · have hother : l ≠ log := fun heq => hl (by rw [heq, setAt_self])
      rw [setAt_of_ne hother] at hl ⊢
      exact ⟨rfl, fun heq => hother (hclass heq hl)⟩
    · exact ⟨rfl, fun heq => hcur (hclass heq hl ▸ heq)⟩
  obtain ⟨err, s', hrun, herr, hallocs, hmem, hgood⟩ := releasePage_spec
    { s₂ with a := { s₂.a with
      pages := if s₂.a.pages log = b then setAt s₂.a.pages log 0 else s₂.a.pages } }
    g hb hun.touches hblocks (by rw [hun.a_eq]; exact ⟨rfl, rfl, rfl, rfl⟩) hlists hcurrent ok
  refine ⟨err, s', s₂.mem, ?_, herr, ?_, hun.touches, hmem, hgood⟩
  · have hloop' : Machine.unlinkSlots log b (2 ^ 63) 0 s = .ok s₂ := hloop
    rw [Machine.releaseSlots, hloop', ok_bind]
    exact hrun
  · rw [hallocs, hun.a_eq]

/-- A page of slots. -/
theorem free_shared (g : Good s sh) (hbusy : sh.Busy) (hp : p ∈ sh.live)
    (hne : (sh.info (pageOf p)).log ≠ 0) (ok : Bool) :
    ∃ err s' sh', s.uintptrFree p ok = .ok (err, s') ∧ (ok = true → err = none) ∧
      Freed s sh p ok s' sh' := by
  have hblock := g.placed.live_block p hp
  have hb := hblock.1
  obtain ⟨b, hbdef⟩ : ∃ b, pageOf p = b := ⟨_, rfl⟩
  obtain ⟨log, hlog⟩ : ∃ log, (sh.info b).log = log := ⟨_, rfl⟩
  obtain ⟨s₁, mem, hpush, hfield, hallocs₁, -, ht₁, g₁⟩ :=
    push_spec (g.setAllocs (int64 (s.a.allocs - 1))) hp rfl hne
  rw [hbdef] at hb hne hpush hfield ht₁ g₁
  rw [hlog] at hne hpush ht₁ g₁
  have hlog₁ : ((sh.give p log).info b).log = log := hlog
  -- what the code has done when it looks at the count
  have hrun : s.uintptrFree p ok =
      if ((sh.give p log).used b : ℤ) ≠ 0 then .ok (none, { s₁ with mem := mem })
      else Machine.releaseSlots { s₁ with mem := mem } log b ok := by
    rw [Machine.uintptrFree, if_neg (g.placed.ne_zero hblock)]
    dsimp only
    rw [hbdef, (g.header b hb).log_eq, deref_some, ok_bind, hlog, if_neg hne, hpush, ok_bind,
      hfield, ok_bind, (g₁.header b hb).used_eq (by rwa [hlog₁]), deref_some, ok_bind]
    rfl
  have hnodes : ∀ n ∈ insert p {q | q ∈ sh.free log}, sh.Block n ∧ n ∉ sh.live.erase p := by
    rintro q (rfl | hq)
    · exact ⟨hblock, Finset.notMem_erase q _⟩
    · exact ⟨g.placed.block_of_free hq, fun hlive =>
        g.placed.not_live_of_free hq (Finset.mem_of_mem_erase hlive)⟩
  have hothers : ∀ c, c ≠ b → (sh.give p log).used c = sh.used c := by
    intro c hc
    have hcount := Shape.used_erase hp c
    rw [hbdef, if_neg (Ne.symm hc), Nat.add_zero] at hcount
    exact hcount.symm
  by_cases hused : (sh.give p log).used b = 0
  · -- the page goes
    obtain ⟨err, s', m, hrel, herr, hallocs, ht₂, hmem, hgood⟩ :=
      releaseSlots_spec g₁ hb hlog₁ hne hused ok
    have hfree₁ : (sh.give p log).free log = p :: sh.free log := setAt_self _ _ _
    rw [hfree₁] at ht₂
    have ht := ht₁.trans (ht₂.mono (fun c hc => absurd hc (Set.notMem_empty c))
      fun q hq => List.mem_cons.1 hq)
    refine ⟨err, s', (sh.give p log).dropPage b, ?_, herr, ?_⟩
    · rw [hrun, hused, if_neg (by decide)]
      exact hrel
    have hs₂ : Touches s.mem (Machine.mk m s₁.a).mem {b} (insert p {q | q ∈ sh.free log}) := ht
    refine .of_release g hbusy hb hs₂ hnodes rfl rfl
      (fun q => ⟨fun h => h.1, fun hq => ⟨hq, fun hpage => ?_⟩⟩) hothers ?_ hmem hgood
    · have hpos : 0 < (sh.give p log).used b := Shape.used_pos_iff.2 ⟨q, hq, hpage⟩
      omega
    · rw [hallocs]
      exact hallocs₁
  · -- the page stays
    refine ⟨none, { s₁ with mem := mem }, sh.give p log, ?_, fun _ => rfl, g₁, fun c hc => ?_, rfl,
      fun _ _ => rfl, fun q hq => ?_, hallocs₁,
      .of_touches g ht₁ (fun d hd => by rwa [Set.mem_singleton_iff.1 hd]) (fun n hn => (hnodes n hn).1)
        rfl fun _ => rfl⟩
    · rw [hrun, if_pos (by omega)]
    · by_cases hcb : c = b
      · rw [hcb]
        omega
      · rw [hothers c hcb]
        exact hbusy c hc
    · have hlive : q ∈ sh.live.erase p := hq
      exact ht₁.same_block g.placed (fun d hd => by rwa [Set.mem_singleton_iff.1 hd])
        (fun n hn => (hnodes n hn).1) (g.placed.live_block q (Finset.mem_of_mem_erase hlive))
        fun hn => (hnodes q hn).2 hlive

/-- **A block is given back.** -/
theorem uintptrFree_spec (g : Good s sh) (hbusy : sh.Busy) (hp : p ∈ sh.live) (ok : Bool) :
    ∃ err s' sh', s.uintptrFree p ok = .ok (err, s') ∧ (ok = true → err = none) ∧
      Freed s sh p ok s' sh' := by
  by_cases hlog : (sh.info (pageOf p)).log = 0
  · exact free_dedicated g hbusy hp hlog ok
  · exact free_shared g hbusy hp hlog ok

end Alloc
