import GoExperiments.Alloc.Malloc

/-!
# The other calls

What the client does in its own blocks keeps the invariant (`Good.put`), and with that
`UintptrCalloc` (`uintptrCalloc_spec`) and `UintptrRealloc` (`uintptrRealloc_spec`) are put together
from `UintptrMalloc` and `UintptrFree`.  `Close` unmaps all pages in any order (`close_spec`).
-/

namespace Alloc

open ByteMemory Go

variable {os : Os} {s : Machine} {sh : Shape} {b p : ℕ} {ans : MmapAnswer}

/-! ## Stores of the client -/

/-- The memory of the client's blocks may change. -/
theorem Good.of_same {m' : Mem} (g : Good s sh) (hsome : ∀ x, (m' x).isSome = (s.mem x).isSome)
    (hheaders : ∀ b ∈ sh.pages, Same s.mem m' b 32)
    (hblocks : ∀ q, sh.Block q → q ∉ sh.live → Same s.mem m' q (sh.width q)) :
    Good { s with mem := m' } sh := by
  refine ⟨g.placed, fun c hc i hi => ?_, fun c hc => (g.header c hc).congr (hheaders c hc),
    fun log => (g.lists log).congr fun q hq => loadNode_congr ?_, g.current, g.cap, g.cap_eq,
    g.regs, g.mmaps, g.bytes⟩
  · dsimp only
    rw [hsome]
    exact g.mapped c hc i hi
  · have hblock := g.placed.block_of_free hq
    have hwidth := g.placed.sixteen_le_width hblock
    exact (hblocks q hblock (g.placed.not_live_of_free hq)).mono (Nat.le_refl q) (by omega)

/-- **The client stores into one of its blocks.** -/
theorem Good.put (g : Good s sh) (hp : p ∈ sh.live) (a : ℕ) (bs : List UInt8) (hlo : p ≤ a)
    (hhi : a + bs.length ≤ p + sh.width p) :
    writeBytes s.mem a bs = some (ByteMemory.put s.mem a bs) ∧
      Good { s with mem := ByteMemory.put s.mem a bs } sh ∧
      (∀ q ∈ sh.live, q ≠ p → Same s.mem (ByteMemory.put s.mem a bs) q (sh.width q)) ∧
      Frame s sh { s with mem := ByteMemory.put s.mem a bs } sh True := by
  have hblock := g.placed.live_block p hp
  have hmap : Mapped s.mem a bs.length := (g.mapped_block hblock).mono hlo hhi
  have hsame : ∀ {c n}, Apart c n p (sh.width p) → Same s.mem (ByteMemory.put s.mem a bs) c n :=
    fun hapart => same_put (hapart.mono (Nat.le_refl _) (Nat.le_refl _) hlo hhi)
  have hother : ∀ q, sh.Block q → q ≠ p →
      Same s.mem (ByteMemory.put s.mem a bs) q (sh.width q) := fun q hq hne =>
    hsame (g.placed.block_apart hq hblock hne)
  refine ⟨writeBytes_eq hmap, g.of_same (isSome_put hmap)
    (fun c hc => hsame (g.placed.header_apart hc hblock))
    (fun q hq hnot => hother q hq fun heq => hnot (heq ▸ hp)),
    fun q hq hne => hother q (g.placed.live_block q hq) hne, fun x _ hown => ⟨?_, hown⟩,
    fun _ x hx => ?_⟩
  · have hinside := g.placed.inside hblock
    refine hsame (n := 1) ?_ x (Nat.le_refl x) (Nat.lt_succ_self x)
    unfold Apart
    by_contra hin
    exact hown ⟨pageOf p, hblock.1, by omega, by omega⟩
  · dsimp only at hx
    rw [isSome_put hmap] at hx
    exact (Classical.em (sh.Own x)).imp_right fun h => ⟨hx, h⟩

/-! ## `UsableSize` -/

theorem Good.width_lt (g : Good s sh) (hp : p ∈ sh.live) : sh.width p < 2 ^ 47 := by
  have hblock := g.placed.live_block p hp
  have hinside := g.placed.inside hblock
  have hhigh := (g.placed.fits _ hblock.1).high
  omega

/-- **The size the code computes is the size of the block.** -/
theorem usableSize_spec (g : Good s sh) (hp : p ∈ sh.live) : s.usableSize p = .ok (sh.width p : ℤ) := by
  have hblock := g.placed.live_block p hp
  have hheader := g.header _ hblock.1
  have hfits := g.placed.fits _ hblock.1
  unfold Machine.usableSize Shape.width
  rw [hheader.log_eq, deref_some, ok_bind]
  by_cases hlog : (sh.info (pageOf p)).log = 0
  · have hhigh := hfits.high
    have hle := hfits.header_le
    rw [if_neg (not_not.2 hlog), hheader.size_eq, deref_some, ok_bind, headerSize_eq,
      PageInfo.width_of_dedicated hlog, int64_of_fits (by omega) (by omega)]
    refine congrArg Except.ok ?_
    omega
  · rw [if_pos hlog, shl_one (by have := hfits.class_le; omega), PageInfo.width_of_shared hlog]
    rfl

/-! ## `UintptrCalloc` -/

/-- Stores into the new block. -/
theorem Given.put {s' : Machine} {sh' : Shape} {w : ℕ} (h : Given s sh w p s' sh')
    (bs : List UInt8) (hbs : bs.length ≤ sh'.width p) :
    writeBytes s'.mem p bs = some (ByteMemory.put s'.mem p bs) ∧
      Given s sh w p { s' with mem := ByteMemory.put s'.mem p bs } sh' := by
  have hp : p ∈ sh'.live := by rw [h.live]; exact Finset.mem_insert_self _ _
  obtain ⟨hwrite, hgood, hsame, hframe⟩ :=
    h.good.put hp p bs (Nat.le_refl p) (Nat.add_le_add_left hbs p)
  refine ⟨hwrite, hgood, h.busy, h.fresh, h.live, h.width_new, h.width, fun q hq => ?_, h.allocs,
    (h.frame.trans hframe).mono fun _ => ⟨trivial, trivial⟩⟩
  have hq' : q ∈ sh'.live := by rw [h.live]; exact Finset.mem_insert_of_mem hq
  have hkeep := hsame q hq' fun heq => h.fresh (heq ▸ hq)
  rw [h.width q hq] at hkeep
  exact (h.same q hq).trans hkeep

/-- **`UintptrCalloc`.** -/
theorem uintptrCalloc_spec {size : ℕ} (g : Good s sh) (hbusy : sh.Busy) (hpos : 0 < size)
    (hle : size ≤ 2 ^ 62) (hlegal : Legal os s.mem (asked os size) ans) :
    (∃ e s', s.uintptrCalloc os size ans = .ok (0, some e, s') ∧ Failed s sh ans s') ∨
      ∃ p s' sh', s.uintptrCalloc os size ans = .ok (p, none, s') ∧
        Given s sh (usable os size) p s' sh' ∧ readBytes s'.mem p size = some (List.replicate size 0) := by
  unfold Machine.uintptrCalloc
  obtain ⟨e, s', hrun, hfailed⟩ | ⟨p, s', sh', hrun, hgiven⟩ :=
    uintptrMalloc_spec g hbusy hpos hle hlegal
  · rw [hrun, ok_bind]
    exact .inl ⟨e, s', rfl, hfailed⟩
  · have hp : p ∈ sh'.live := by rw [hgiven.live]; exact Finset.mem_insert_self _ _
    have hp0 := hgiven.good.placed.ne_zero (hgiven.good.placed.live_block p hp)
    have hroom : size ≤ sh'.width p := by
      rw [hgiven.width_new]
      exact le_usable hpos hle
    have hwidth := hgiven.good.width_lt hp
    obtain ⟨hwrite, hgiven'⟩ := hgiven.put (List.replicate size 0)
      (by rw [List.length_replicate]; exact hroom)
    have hread := readBytes_put_self s'.mem p (List.replicate size 0)
    rw [List.length_replicate] at hread
    refine .inr ⟨p, _, sh', ?_, hgiven', hread⟩
    rw [hrun, ok_bind]
    dsimp only
    rw [if_neg (by simp [hp0]), if_neg (by omega), Int.toNat_natCast, hwrite, deref_some]
    rfl

/-! ## `UintptrRealloc` -/

/-- What `UintptrRealloc` leaves where it moves the block `p` to `r`. -/
structure Moved (s : Machine) (sh : Shape) (p size r : ℕ) (ok : Bool) (s' : Machine) (sh' : Shape) :
    Prop where
  good : Good s' sh'
  busy : sh'.Busy
  fresh : r ∉ sh.live
  live : sh'.live = (insert r sh.live).erase p
  room : size ≤ sh'.width r
  width : ∀ q ∈ sh.live, q ≠ p → sh'.width q = sh.width q
  same : ∀ q ∈ sh.live, q ≠ p → Same s.mem s'.mem q (sh.width q)
  content : readBytes s'.mem r (sh.width p) = readBytes s.mem p (sh.width p)
  allocs : s'.a.allocs = int64 s.a.allocs
  frame : Frame s sh s' sh' (ok = true)

/-- **`UintptrRealloc`, where the block is too small.** -/
theorem uintptrRealloc_spec {size : ℕ} (g : Good s sh) (hbusy : sh.Busy) (hp : p ∈ sh.live)
    (hsize : sh.width p ≤ size) (hle : size ≤ 2 ^ 62)
    (hlegal : Legal os s.mem (asked os size) ans) (ok : Bool) :
    (∃ e s', s.uintptrRealloc os p size ans ok = .ok (0, some e, s') ∧ Failed s sh ans s') ∨
      ∃ r err s' sh', s.uintptrRealloc os p size ans ok = .ok (r, err, s') ∧
        (ok = true → err = none) ∧ Moved s sh p size r ok s' sh' := by
  have hblock := g.placed.live_block p hp
  have hp0 := g.placed.ne_zero hblock
  have hwidth := g.placed.sixteen_le_width hblock
  have hlt := g.width_lt hp
  unfold Machine.uintptrRealloc
  rw [if_neg hp0, if_neg (by omega), Machine.uintptrUsableSize, if_neg hp0, usableSize_spec g hp,
    ok_bind, if_neg (by omega)]
  obtain ⟨e, s₁, hrun, hfailed⟩ | ⟨r, s₁, sh₁, hrun, hgiven⟩ :=
    uintptrMalloc_spec g hbusy (by omega) hle hlegal
  · rw [hrun, ok_bind]
    exact .inl ⟨e, s₁, rfl, hfailed⟩
  · have hcopy : (if (sh.width p : ℤ) < (size : ℤ) then (sh.width p : ℤ) else (size : ℤ)) =
        sh.width p := by
      split_ifs with h
      · rfl
      · omega
    have hrp : r ≠ p := fun heq => hgiven.fresh (heq ▸ hp)
    -- the copy
    obtain ⟨bs, hbs⟩ := exists_readBytes (g.mapped_block hblock)
    have hlen : bs.length = sh.width p := (readBytes_eq_some_iff.1 hbs).1
    have hbs₁ : readBytes s₁.mem p (sh.width p) = some bs :=
      (readBytes_congr (hgiven.same p hp)).trans hbs
    have hroom : size ≤ sh₁.width r := by
      rw [hgiven.width_new]
      exact le_usable (by omega) hle
    obtain ⟨hwrite, hgiven₂⟩ := hgiven.put bs (by omega)
    have hread := readBytes_put_self s₁.mem r bs
    rw [hlen] at hread
    have hcopied : s₁.copyBytes r p (sh.width p) =
        .ok { s₁ with mem := ByteMemory.put s₁.mem r bs } := by
      rw [Machine.copyBytes, if_neg (by omega), Int.toNat_natCast, hbs₁, deref_some, ok_bind, hwrite,
        deref_some]
      rfl
    -- the old block is given back
    have hp₁ : p ∈ sh₁.live := by rw [hgiven.live]; exact Finset.mem_insert_of_mem hp
    obtain ⟨err, s', sh', hfree, herr, hfreed⟩ := uintptrFree_spec hgiven₂.good hgiven₂.busy hp₁ ok
    have hr' : r ∈ sh'.live := by
      rw [hfreed.live, hgiven.live]
      exact Finset.mem_erase.2 ⟨hrp, Finset.mem_insert_self _ _⟩
    have hq' : ∀ q ∈ sh.live, q ≠ p → q ∈ sh'.live := by
      intro q hq hne
      rw [hfreed.live, hgiven.live]
      exact Finset.mem_erase.2 ⟨hne, Finset.mem_insert_of_mem hq⟩
    refine .inr ⟨r, err, s', sh', ?_, herr, hfreed.good, hfreed.busy, hgiven.fresh, ?_, ?_,
      fun q hq hne => ?_, fun q hq hne => ?_, ?_, ?_, ?_⟩
    · rw [hrun, ok_bind]
      dsimp only
      rw [hcopy, hcopied, ok_bind, hfree, ok_bind]
      rfl
    · rw [hfreed.live, hgiven.live]
    · rw [hfreed.width r hr']
      exact hroom
    · rw [hfreed.width q (hq' q hq hne), hgiven.width q hq]
    · have hsame := hfreed.same q (hq' q hq hne)
      rw [hgiven.width q hq] at hsame
      exact (hgiven₂.same q hq).trans hsame
    · have hsame := (hfreed.same r hr').mono (Nat.le_refl r)
        (Nat.add_le_add_left (Nat.le_trans hsize hroom) r)
      rw [readBytes_congr hsame, hread, hbs]
    · rw [hfreed.allocs, hgiven₂.allocs, int64_int64_sub, add_sub_cancel_right]
    · exact (hgiven₂.frame.trans hfreed.frame).mono fun hok => ⟨trivial, hok⟩

/-! ## `Close` -/

/-- Nothing. -/
def Shape.empty : Shape := ⟨∅, fun _ => ⟨0, 0, 0⟩, ∅, fun _ => []⟩

theorem good_zero (m : Mem) : Good ⟨m, Allocator.zero⟩ Shape.empty := by
  have hnone : ∀ b, b ∉ (Shape.empty).pages := fun b => Finset.notMem_empty b
  refine ⟨⟨fun b hb => absurd hb (hnone b), fun b hb => absurd hb (hnone b),
      fun p hp => absurd hp (Finset.notMem_empty p), fun log p => ?_⟩,
    fun b hb => absurd hb (hnone b), fun b hb => absurd hb (hnone b),
    fun log => LinkedList.isList_nil _, fun log h => absurd rfl h, fun b hb => absurd hb (hnone b),
    fun log => .inl rfl, rfl, rfl, rfl⟩
  exact ⟨fun h => absurd h List.not_mem_nil, fun h => absurd h.1.1 (hnone _)⟩

/-- The pages are unmapped one after the other; the sizes are read where nothing was unmapped
yet. -/
theorem closePages_spec (g : Good s sh) (order : List (ℕ × Bool)) (err : Err) (s₁ : Machine)
    (hnodup : (order.map Prod.fst).Nodup) (hsub : ∀ p ∈ order.map Prod.fst, p ∈ sh.pages)
    (hsame : ∀ p ∈ order.map Prod.fst, Same s.mem s₁.mem p (sh.info p).size) :
    ∃ err' s₂, Machine.closePages order err s₁ = .ok (err', s₂) ∧
      ((∀ entry ∈ order, entry.2 = true) → err' = err) ∧
      (∀ x, (∀ p ∈ order.map Prod.fst, ¬ (p ≤ x ∧ x < p + (sh.info p).size)) →
        s₂.mem x = s₁.mem x) ∧
      ∀ x, (s₂.mem x).isSome = true → (s₁.mem x).isSome = true ∧
        ∀ p, (p, true) ∈ order → ¬ (p ≤ x ∧ x < p + (sh.info p).size) := by
  induction order generalizing err s₁ with
  | nil =>
      exact ⟨err, s₁, rfl, fun _ => rfl, fun _ _ => rfl, fun x hx => ⟨hx, fun p hp => absurd hp List.not_mem_nil⟩⟩
  | cons entry order ih =>
      obtain ⟨p, ok⟩ := entry
      rw [List.map_cons, List.nodup_cons] at hnodup
      have hp := hsub p (by simp)
      have hle := g.placed.header_le hp
      have hheader : Header s₁.mem p (sh.info p) (sh.used p) :=
        (g.header p hp).congr ((hsame p (by simp)).mono (Nat.le_refl p) (by omega))
      have hsize : loadInt s₁.mem (p + 16) = some ((sh.info p).size : ℤ) := hheader.size_eq
      have hrest : ∀ q ∈ order.map Prod.fst, q ∈ sh.pages := fun q hq =>
        hsub q (by rw [List.map_cons]; exact List.mem_cons_of_mem _ hq)
      have hmem : ∀ q ∈ order.map Prod.fst, Same s.mem
          (if ok then fill s₁.mem p (sh.info p).size none else s₁.mem) q (sh.info q).size := by
        intro q hq
        have hold := hsame q (by rw [List.map_cons]; exact List.mem_cons_of_mem _ hq)
        have hne : q ≠ p := fun heq => hnodup.1 (heq ▸ hq)
        cases ok with
        | true => exact hold.trans (same_fill none (g.placed.apart q (hrest q hq) p hp hne))
        | false => exact hold
      obtain ⟨err', s₂, hrun, herr, hout, hafter⟩ := ih
        (if (if ok then none else some Errno.munmap) ≠ none ∧ err = none then
          (if ok then none else some Errno.munmap) else err)
        { mem := if ok then fill s₁.mem p (sh.info p).size none else s₁.mem
          a := { s₁.a with regs := s₁.a.regs.erase p, mmaps := int64 (s₁.a.mmaps - 1) } }
        hnodup.2 hrest hmem
      refine ⟨err', s₂, ?_, fun hok => ?_, fun x hx => ?_, fun x hx => ?_⟩
      · rw [Machine.closePages, Machine.unmap, hsize, deref_some, ok_bind, ← hrun]
        cases ok <;> rfl
      · have hok' : ok = true := hok (p, ok) List.mem_cons_self
        rw [herr fun entry he => hok entry (List.mem_cons_of_mem _ he), hok']
        rfl
      · rw [List.map_cons] at hx
        rw [hout x fun q hq => hx q (List.mem_cons_of_mem _ hq)]
        cases ok with
        | true => exact fill_of_not_mem (hx p List.mem_cons_self)
        | false => rfl
      · obtain ⟨hsome, hnot⟩ := hafter x hx
        cases ok with
        | false =>
            refine ⟨hsome, fun q hq => hnot q ?_⟩
            obtain heq | hq := List.mem_cons.1 hq
            · cases heq
            · exact hq
        | true =>
            have hout : ¬ (p ≤ x ∧ x < p + (sh.info p).size) := by
              intro hin
              dsimp only at hsome
              rw [if_pos rfl, fill_of_mem hin] at hsome
              cases hsome
            dsimp only at hsome
            rw [if_pos rfl, fill_of_not_mem hout] at hsome
            refine ⟨hsome, fun q hq => ?_⟩
            obtain heq | hq := List.mem_cons.1 hq
            · cases heq
              exact hout
            · exact hnot q hq

/-- **`Close`.** -/
theorem close_spec (g : Good s sh) {order : List (ℕ × Bool)}
    (hnodup : (order.map Prod.fst).Nodup) (hall : ∀ p, p ∈ order.map Prod.fst ↔ p ∈ s.a.regs) :
    ∃ err s', s.close order = .ok (err, s') ∧ ((∀ entry ∈ order, entry.2 = true) → err = none) ∧
      s'.a = Allocator.zero ∧ Good s' Shape.empty ∧
      Frame s sh s' Shape.empty (∀ entry ∈ order, entry.2 = true) := by
  rw [g.regs] at hall
  obtain ⟨err, s', hrun, herr, hout, hafter⟩ := closePages_spec g order none s hnodup
    (fun p hp => (hall p).1 hp) fun p _ => Same.refl _ _ _
  have hnone : ∀ x, ¬ Shape.empty.Own x := by
    rintro x ⟨b, hb, -⟩
    exact Finset.notMem_empty b hb
  refine ⟨err, { s' with a := Allocator.zero }, ?_, herr, rfl, good_zero s'.mem,
    fun x _ hown => ⟨?_, hnone x⟩, fun hok x hx => .inr ?_⟩
  · rw [Machine.close, hrun, ok_bind]
    rfl
  · exact hout x fun p hp hin => hown ⟨p, (hall p).1 hp, hin⟩
  · obtain ⟨hsome, hnot⟩ := hafter x hx
    refine ⟨hsome, ?_⟩
    rintro ⟨b, hb, hin⟩
    obtain ⟨⟨b', ok⟩, hmem, rfl⟩ := List.mem_map.1 ((hall b).2 hb)
    have htrue : ok = true := hok _ hmem
    rw [htrue] at hmem
    exact hnot b' hmem hin

/-! ## When everything was given back -/

theorem Shape.Busy.pages_eq (hbusy : sh.Busy) (hlive : sh.live = ∅) : sh.pages = ∅ := by
  refine Finset.eq_empty_of_forall_notMem fun b hb => ?_
  obtain ⟨q, hq, -⟩ := Shape.used_pos_iff.1 (hbusy b hb)
  rw [hlive] at hq
  exact Finset.notMem_empty q hq

/-- **Nothing is left of an allocator that began with no pages**, when its client has no block and
no `munmap` failed. -/
theorem Frame.mem_eq {s₀ : Machine} {clean : Prop} (hframe : Frame s₀ Shape.empty s sh clean)
    (hclean : clean) (hbusy : sh.Busy) (hlive : sh.live = ∅) : s.mem = s₀.mem := by
  have hnone : ∀ {sh' : Shape} {x : ℕ}, sh'.pages = ∅ → ¬ sh'.Own x := by
    rintro sh' x hpages ⟨b, hb, -⟩
    rw [hpages] at hb
    exact Finset.notMem_empty b hb
  funext x
  by_cases hx : (s₀.mem x).isSome = true
  · exact (hframe.foreign x hx (hnone rfl)).1
  · have hx' : ¬ (s.mem x).isSome = true := fun hsome =>
      hx ((hframe.tight hclean x hsome).resolve_left (hnone (hbusy.pages_eq hlive))).1
    rw [Option.not_isSome_iff_eq_none] at hx hx'
    rw [hx, hx']

end Alloc
