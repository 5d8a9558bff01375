import GoExperiments.Alloc.Heap

/-!
# The program, and requests at the edges

`main.go` writes "hello world" into a block of the allocator.  `main_runs` says what it logs and
what it leaves, whatever the operating system answers.

The calls that return byte slices pass requests on that the allocator was not made for:

* `calloc_zero_faults` — a request for no bytes, which `Malloc` answers with `nil`.
* `huge_malloc` — a request for more than `2 ^ 62` bytes, which is answered with a block on one
  page of the operating system.
-/

namespace Alloc

open ByteMemory Runs Go

variable {os : Os} {ans : MmapAnswer}

/-! ## `main` -/

def helloWorld : List UInt8 := "hello world".toList.map fun c => UInt8.ofNat c.toNat

/-- The line that is logged: `%+v` of a byte slice has the bytes as numbers. -/
def logLine (b : List UInt8) (len cap : ℤ) : String :=
  "b is: [" ++ " ".intercalate (b.map fun x => toString x.toNat) ++ "], len: " ++ toString len ++
    ", cap: " ++ toString cap ++ "\n"

/-- `main`, between the calls of the allocator: the line, and the process after it. -/
def fillAndLog (s : Machine) (b : ByteSlice) : Except Crash (String × Machine) := do
  let mem ← deref (writeBytes s.mem b.data (helloWorld.take b.len.toNat))
  let shown ← deref (readBytes mem b.data b.len.toNat)
  return (logLine shown b.len b.cap, { s with mem := mem })

/-- `main`: what it logs, and how it ends. -/
def main (os : Os) (s : Machine) (ans : MmapAnswer) (ok : Bool) :
    Option String × Except Crash Machine :=
  match s.calloc os helloWorld.length ans with
  | .error c => (none, .error c)
  | .ok (_, some _, _) => (none, .error .panic)
  | .ok (b, none, s) =>
      match fillAndLog s b with
      | .error c => (none, .error c)
      | .ok (line, s) => (some line, do
          let (err, s) ← s.free b ok
          if err ≠ none then .error .panic else return s)

/-- `Calloc`, for some bytes. -/
theorem calloc_spec {s : Machine} {sh : Shape} {size : ℕ} (g : Good s sh) (hbusy : sh.Busy)
    (hpos : 0 < size) (hle : size ≤ 2 ^ 62) (hlegal : Legal os s.mem (asked os size) ans) :
    (∃ e s', s.calloc os size ans = .ok (.nil, some e, s') ∧ Failed s sh ans s') ∨
      ∃ p s' sh', s.calloc os size ans = .ok (⟨p, size, usable os size⟩, none, s') ∧
        Given s sh (usable os size) p s' sh' ∧
        readBytes s'.mem p size = some (List.replicate size 0) := by
  unfold Machine.calloc
  obtain ⟨e, s', hrun, hfailed⟩ | ⟨p, s', sh', hrun, hgiven, hread⟩ :=
    uintptrCalloc_spec g hbusy hpos hle hlegal
  · rw [hrun, ok_bind]
    exact .inl ⟨e, s', rfl, hfailed⟩
  · have hp : p ∈ sh'.live := by rw [hgiven.live]; exact Finset.mem_insert_self _ _
    refine .inr ⟨p, s', sh', ?_, hgiven, hread⟩
    rw [hrun, ok_bind]
    dsimp only
    rw [if_neg (not_not.2 rfl), usableSize_spec hgiven.good hp, ok_bind, hgiven.width_new]
    rfl

/-- The string is copied into the block, and read again. -/
theorem fillAndLog_eq {s : Machine} {p : ℕ}
    (hwrite : writeBytes s.mem p helloWorld = some (put s.mem p helloWorld)) :
    fillAndLog s ⟨p, (11 : ℕ), (16 : ℕ)⟩ =
      .ok ("b is: [104 101 108 108 111 32 119 111 114 108 100], len: 11, cap: 16\n",
        { s with mem := put s.mem p helloWorld }) := by
  have hread : readBytes (put s.mem p helloWorld) p 11 = some helloWorld :=
    readBytes_put_self s.mem p helloWorld
  have hline : logLine helloWorld (11 : ℕ) (16 : ℕ) =
      "b is: [104 101 108 108 111 32 119 111 114 108 100], len: 11, cap: 16\n" := by
    decide +kernel
  unfold fillAndLog
  dsimp only
  rw [Int.toNat_natCast, show helloWorld.take 11 = helloWorld by decide, hwrite, deref_some,
    ok_bind, hread, deref_some, ok_bind, hline]
  rfl

/-- If the operating system refuses the page, `main` panics before it logs. -/
theorem main_refused (mem : Mem) (ok : Bool) (hbase : ans.base = none) :
    main os ⟨mem, Allocator.zero⟩ ans ok = (none, .error .panic) := by
  have hmmap : ∀ (s : Machine) size, s.mmap os size ans = .ok (0, some .mmap, s) := by
    intro s size
    unfold Machine.mmap Alloc.mmap
    rw [hbase]
    rfl
  have hlen : (helloWorld.length : ℤ) = 11 := by decide
  -- the class of the request has no page yet
  have hmalloc : ∃ s', Machine.uintptrMalloc os ⟨mem, Allocator.zero⟩ 11 ans =
      .ok (0, some .mmap, s') := by
    unfold Machine.uintptrMalloc Machine.refill Machine.newSharedPage
    rw [show sizeLog 11 = 4 by decide, if_neg (by decide), if_neg (by decide)]
    dsimp only
    rw [if_neg (by decide), if_pos ⟨rfl, rfl⟩, hmmap]
    exact ⟨_, rfl⟩
  obtain ⟨s', hs'⟩ := hmalloc
  unfold main Machine.calloc Machine.uintptrCalloc
  rw [hlen, hs']
  rfl
/-- **What `main` does.**  If the operating system maps no memory, the program panics before it
logs.  If it maps the page, the program logs the bytes, the length 11 and the capacity 16; and if it
also unmaps the page, the program ends as it should and exactly the memory is mapped that was mapped
before. -/
theorem main_runs (mem : Mem) (ok : Bool) (hlegal : Legal os mem (asked os 11) ans) :
    (ans.base = none → main os ⟨mem, Allocator.zero⟩ ans ok = (none, .error .panic)) ∧
      ((ans.Refused ∧ main os ⟨mem, Allocator.zero⟩ ans ok = (none, .error .panic)) ∨
        ∃ out, main os ⟨mem, Allocator.zero⟩ ans ok = (some
            "b is: [104 101 108 108 111 32 119 111 114 108 100], len: 11, cap: 16\n", out) ∧
          (ok = true → ∃ s, out = .ok s ∧ s.mem = mem ∧ s.a.regs = ∅ ∧ s.a.bytes = 0)) := by
  refine ⟨main_refused mem ok, ?_⟩
  have hlen : (helloWorld.length : ℤ) = (11 : ℕ) := by decide
  have husable : usable os 11 = 16 := by
    rw [usable, show sizeLog (11 : ℕ) = 4 by decide]
    rfl
  unfold main
  rw [hlen]
  obtain ⟨e, s₁, hrun, hfailed⟩ | ⟨p, s₁, sh₁, hrun, hgiven, -⟩ := calloc_spec (good_zero mem)
    (fun b hb => absurd hb (Finset.notMem_empty b)) (by decide) (by decide) hlegal
  · rw [hrun]
    exact .inl ⟨hfailed.refused, rfl⟩
  · have hlive : sh₁.live = {p} := hgiven.live
    have hp : p ∈ sh₁.live := by rw [hlive]; exact Finset.mem_singleton_self p
    obtain ⟨hwrite, hgiven₂⟩ := hgiven.put helloWorld (by rw [hgiven.width_new, husable]; decide)
    -- the block is given back
    obtain ⟨err, s₂, sh₂, hfree, herr, hfreed⟩ := uintptrFree_spec hgiven₂.good hgiven₂.busy hp ok
    have hnone : sh₂.live = ∅ := by rw [hfreed.live, hlive, Finset.erase_singleton]
    have hpages := hfreed.busy.pages_eq hnone
    refine .inr ⟨if err ≠ none then .error .panic else .ok s₂, ?_, fun hok => ⟨s₂, ?_, ?_, ?_, ?_⟩⟩
    · rw [hrun, husable]
      dsimp only
      rw [fillAndLog_eq hwrite]
      dsimp only
      rw [Machine.free, if_neg (show ((16 : ℕ) : ℤ) ≠ 0 by decide), hfree, ok_bind]
      rfl
    · rw [herr hok]
      rfl
    · exact (hgiven₂.frame.trans hfreed.frame).mem_eq ⟨trivial, hok⟩ hfreed.busy hnone
    · rw [hfreed.good.regs, hpages]
    · rw [hfreed.good.bytes, hpages]
      rfl

theorem main_runs_page4k :
    main page4k ⟨fun _ => none, Allocator.zero⟩ ⟨none, true, true⟩ true = (none, .error .panic) ∧
      ∃ out, main page4k ⟨fun _ => none, Allocator.zero⟩ ⟨some (2 ^ 30), true, true⟩ true = (some
        "b is: [104 101 108 108 111 32 119 111 114 108 100], len: 11, cap: 16\n", out) := by
  have hlegal : Legal page4k (fun _ => none) (asked page4k 11) ⟨some (2 ^ 30), true, true⟩ := by
    intro p hp
    cases hp
    exact ⟨by decide, by decide, by decide, by decide, fun _ _ _ => rfl⟩
  refine ⟨(main_runs (fun _ => none) true fun p hp => by cases hp).1 rfl, ?_⟩
  obtain ⟨hrefused, -⟩ | ⟨out, hout, -⟩ := (main_runs (fun _ => none) true hlegal).2
  · simp [MmapAnswer.Refused] at hrefused
  · exact ⟨out, hout⟩

/-! ## Requests for no bytes -/

/-- **`Calloc(0)` ends the process.**  After every run in which no `munmap` failed, if nothing was
mapped at the lowest addresses before it, `Calloc` of no bytes asks for the size of the block at
address 0 and faults, where `Malloc`, and `Realloc` of `nil`, return `nil`. -/
theorem calloc_zero_faults {mem : Mem} {acts : List Act} (ok : Bool)
    (hoffered : Offered (Sys.step os) (Allowed os) (Sys.boot mem) acts)
    (hclean : ∀ a ∈ acts, a.Clean) (hlow : mem 8 = none) :
    ∃ t, run (Sys.step os) (Sys.boot mem) acts = some t ∧
      t.machine.calloc os 0 ans = .error .segv ∧
      t.machine.malloc os 0 ans = .ok (.nil, none, t.machine) ∧
      t.machine.realloc os .nil 0 ans ok = .ok (.nil, none, t.machine) := by
  obtain ⟨t, sh, hrun, h, hframe⟩ := run_rep hoffered
  refine ⟨t, hrun, ?_, rfl, rfl⟩
  have hnone : t.machine.mem 8 = none := by
    rw [← Option.not_isSome_iff_eq_none]
    intro hsome
    obtain ⟨b, hb, hle, -⟩ | ⟨hold, -⟩ := hframe.tight hclean 8 hsome
    · -- pages are above the lowest addresses
      obtain ⟨k, rfl⟩ := (h.good.placed.fits b hb).aligned
      have hpos := (h.good.placed.fits _ hb).pos
      omega
    · rw [show (Sys.boot mem).machine.mem 8 = mem 8 from rfl, hlow] at hold
      cases hold
  have hload : load64 t.machine.mem (pageOf 0 + 8) = none := by
    rw [pageOf_eq, load64, Option.map_eq_none_iff, readBytes]
    show (do let v ← t.machine.mem 8; _) = none
    rw [hnone]
    rfl
  show (do let cap ← t.machine.usableSize 0; _) = _
  rw [Machine.usableSize, hload]
  rfl

theorem calloc_zero_faults_brief :
    ∃ t, run (Sys.step page4k) (Sys.boot fun _ => none) brief = some t ∧
      t.machine.calloc page4k 0 ⟨none, true, true⟩ = .error .segv :=
  (calloc_zero_faults true brief_offered brief_clean rfl).imp fun _ h => ⟨h.1, h.2.1⟩

/-! ## Requests above `2 ^ 62` bytes -/

variable {s : Machine} {sh : Shape} {b : ℕ} {size : ℤ}

/-- No class above 18 is in use. -/
theorem Good.unused (g : Good s sh) {log : ℕ} (hlog : 18 < log) :
    s.a.lists log = 0 ∧ s.a.pages log = 0 ∧ s.a.cap log = 0 := by
  refine ⟨?_, ?_, ?_⟩
  · have hfree : sh.free log = [] := by
      refine List.eq_nil_iff_forall_not_mem.2 fun q hq => ?_
      obtain ⟨hblock, -, hclass, -⟩ := (g.placed.mem_free log q).1 hq
      have hle := (g.placed.fits _ hblock.1).class_le
      omega
    have hhead := (g.lists log).head_eq
    rwa [hfree] at hhead
  · by_contra hne
    obtain ⟨hb, hclass, -⟩ := g.current log hne
    have hle := (g.placed.fits _ hb).class_le
    omega
  · obtain hzero | ⟨hle, -⟩ := g.cap_eq log
    · exact hzero
    · omega

/-- The slots of such a request have a negative number of bytes, which is not more than the largest
slot. -/
theorem uintptrMalloc_huge (hlo : 2 ^ 62 < size) (hhi : size < 2 ^ 63) :
    s.uintptrMalloc os size ans = (do
      let (_, err, s) ← Machine.refill os
        { s with a := { s.a with allocs := int64 (s.a.allocs + 1) } } 63 ans
      match err with
      | some e => return (0, some e, s)
      | none =>
          let (r, s) ← s.takeSlot 63
          return (r, none, s)) := by
  unfold Machine.uintptrMalloc
  rw [if_neg (by omega), if_neg (by omega)]
  dsimp only
  rw [sizeLog_of_huge hlo hhi, if_neg (by decide)]
  rfl

/-- A page of the class 63, of which `k` slots were given out. -/
structure HugePage (s : Machine) (b k n : ℕ) : Prop where
  header : Header s.mem b ⟨63, k, n⟩ k
  mapped : Mapped s.mem b 32
  pos : 0 < b
  high : b + 32 ≤ 2 ^ 47
  page : s.a.pages 63 = b
  cap : s.a.cap 63 = 0

/-- The offset of a slot wraps: every other slot has the address of the first one. -/
theorem huge_slot_addr (k : ℕ) (hb : b + 32 ≤ 2 ^ 47) :
    uint64 ((b : ℤ) + (headerSize + shl k 63)) = b + 32 + k % 2 * 2 ^ 63 := by
  have hmod : ((k : ℤ) * 2 ^ 63).bmod (2 ^ 64) = (((k % 2 : ℕ) : ℤ) * 2 ^ 63).bmod (2 ^ 64) := by
    rw [Int.bmod_def, Int.bmod_def]
    omega
  have hcases : k % 2 = 0 ∨ k % 2 = 1 := Nat.mod_two_eq_zero_or_one k
  unfold shl int64 uint64
  rw [hmod, headerSize_eq]
  obtain h | h := hcases
  · have hzero : (((0 : ℕ) : ℤ) * 2 ^ 63).bmod (2 ^ 64) = 0 := by decide
    rw [h, hzero]
    omega
  · have hone : (((1 : ℕ) : ℤ) * 2 ^ 63).bmod (2 ^ 64) = -2 ^ 63 := by decide
    rw [h, hone]
    omega

/-- The next slot of the page. -/
theorem HugePage.takeSlot {k n : ℕ} (h : HugePage s b k n) (hk : k < 2 ^ 61) :
    ∃ s', s.takeSlot 63 = .ok (b + 32 + k % 2 * 2 ^ 63, s') ∧ HugePage s' b (k + 1) n ∧
      ∀ x, (s'.mem x).isSome = (s.mem x).isSome := by
  have hpos := h.pos
  have hbump := bump_eq h.header h.mapped (show 63 ≠ 0 by decide) (show k < 2 ^ 62 by omega)
    (show k < 2 ^ 62 by omega)
  dsimp only at hbump
  rw [huge_slot_addr k h.high, h.cap, if_neg (by omega)] at hbump
  have hmap₁ : Mapped s.mem (b + 24) 8 := h.mapped.mono (by omega) (by omega)
  have hmap₂ : Mapped (putInt s.mem (b + 24) ((k + 1 : ℕ) : ℤ)) b 8 :=
    Mapped.put64 (h.mapped.mono (Nat.le_refl b) (by omega)) hmap₁
  refine ⟨{ s with mem := putInt (putInt s.mem (b + 24) ((k + 1 : ℕ) : ℤ)) b ((k + 1 : ℕ) : ℤ) },
    ?_, ⟨?_, (h.mapped.put64 hmap₁).put64 hmap₂, h.pos, h.high, h.page, h.cap⟩, fun x => ?_⟩
  · rw [Machine.takeSlot, h.page, if_pos (by omega), hbump]
  · exact (h.header.setUsed (n := k + 1) (by omega)).setBrk (n := k + 1) (by omega)
  · exact (isSome_put64 hmap₂ x).trans (isSome_put64 hmap₁ x)

/-- One more request. -/
theorem HugePage.malloc {k n : ℕ} (h : HugePage s b k n) (hk : k < 2 ^ 61) (hlo : 2 ^ 62 < size)
    (hhi : size < 2 ^ 63) (ans : MmapAnswer) :
    ∃ s', s.uintptrMalloc os size ans = .ok (b + 32 + k % 2 * 2 ^ 63, none, s') ∧
      HugePage s' b (k + 1) n ∧ ∀ x, (s'.mem x).isSome = (s.mem x).isSome := by
  have hpos := h.pos
  have hpage : HugePage { s with a := { s.a with allocs := int64 (s.a.allocs + 1) } } b k n :=
    ⟨h.header, h.mapped, h.pos, h.high, h.page, h.cap⟩
  obtain ⟨s', htake, hpage', hsome⟩ := hpage.takeSlot hk
  refine ⟨s', ?_, hpage', hsome⟩
  have hnot : ¬ (s.a.lists 63 = 0 ∧ s.a.pages 63 = 0) := by
    rw [h.page]
    omega
  rw [uintptrMalloc_huge hlo hhi, Machine.refill, if_neg hnot, ok_bind]
  dsimp only
  rw [htake, ok_bind]
  rfl

/-- The first request maps a page for no slots. -/
theorem malloc_hugePage (g : Good s sh) (hlo : 2 ^ 62 < size) (hhi : size < 2 ^ 63)
    (hlegal : Legal os s.mem (os.roundup 32 + 2 ^ 20) ans) (hok : ¬ ans.Refused) :
    ∃ b s', s.uintptrMalloc os size ans = .ok (b + 32, none, s') ∧
      HugePage s' b 1 (os.roundup 32) ∧ 2 ^ 20 ∣ b ∧
      ∀ x, (s'.mem x).isSome = true ↔
        (s.mem x).isSome = true ∨ (b ≤ x ∧ x < b + os.roundup 32) := by
  obtain ⟨hlists, hpages, hcap⟩ := g.unused (show 18 < 63 by decide)
  have hle := os.le_roundup 32
  obtain ⟨s₁, hs₁⟩ : ∃ s₁ : Machine, { s with a := { s.a with
    allocs := int64 (s.a.allocs + 1), cap := setAt s.a.cap 63 0 } } = s₁ := ⟨_, rfl⟩
  have hmem : s₁.mem = s.mem := by rw [← hs₁]
  have hlegal₁ : Legal os s₁.mem (os.roundup 32 + 2 ^ 20) ans := by rwa [hmem]
  obtain ⟨e, m, -, hrefused, -⟩ | ⟨b, m, hrun, hpos, haligned, hhigh, hrange⟩ :=
    mmap_method s₁ (by decide) (by decide) hlegal₁
  · exact absurd hrefused hok
  have hheader : Header (newHeader m b (os.roundup 32) 63) b ⟨63, 0, os.roundup 32⟩ 0 :=
    header_newHeader (fun x hx hxn => (hrange.new x hx (by omega)).2) (by decide) (by omega)
      fun _ => rfl
  have hmap₁ : Mapped m (b + 16) 8 := hrange.mapped.mono (by omega) (by omega)
  have hmap₂ : Mapped (putInt m (b + 16) (os.roundup 32)) (b + 8) 8 :=
    Mapped.put64 (hrange.mapped.mono (by omega) (by omega)) hmap₁
  -- the state after `newSharedPage`
  obtain ⟨s₂, hs₂⟩ : ∃ s₂ : Machine, Machine.mk (newHeader m b (os.roundup 32) 63)
    { (mapped s₁ m b (os.roundup 32)).a with pages := setAt s₁.a.pages 63 b } = s₂ := ⟨_, rfl⟩
  have hpage : HugePage s₂ b 0 (os.roundup 32) := by
    rw [← hs₂]
    refine ⟨hheader, ?_, hpos, by omega, ?_, ?_⟩
    · exact ((hrange.mapped.mono (Nat.le_refl b) (by omega)).put64 hmap₁).put64 hmap₂
    · exact setAt_self s₁.a.pages 63 b
    · rw [← hs₁]
      exact setAt_self s.a.cap 63 0
  obtain ⟨s', htake, hpage', hsome⟩ := hpage.takeSlot (by decide)
  refine ⟨b, s', ?_, hpage', haligned, fun x => ?_⟩
  · have hnew : Machine.newSharedPage os
        { s with a := { s.a with allocs := int64 (s.a.allocs + 1) } } 63 ans =
          .ok (b, none, s₂) := by
      have hzero : pageAvail.tdiv (shl 1 63) = 0 := by decide
      have hsize : int64 (headerSize + shl 0 63) = ((32 : ℕ) : ℤ) := by decide
      unfold Machine.newSharedPage
      rw [show checkIndex 63 = .ok () from rfl, ok_bind]
      dsimp only
      rw [hcap, if_pos rfl, hzero, hsize, hs₁, hrun, ok_bind]
      dsimp only
      rw [store_class hrange (by omega), deref_some, ok_bind, ← hs₂]
      rfl
    rw [uintptrMalloc_huge hlo hhi, Machine.refill, if_pos ⟨hlists, hpages⟩, hnew, ok_bind]
    dsimp only
    rw [htake, ok_bind]
    rfl
  · rw [hsome x, ← hs₂]
    have heq : (newHeader m b (os.roundup 32) 63 x).isSome = (m x).isSome :=
      (isSome_put64 hmap₂ x).trans (isSome_put64 hmap₁ x)
    rw [heq]
    by_cases hin : b ≤ x ∧ x < b + os.roundup 32
    · rw [(hrange.new x hin.1 hin.2).2]
      exact ⟨fun _ => .inr hin, fun _ => rfl⟩
    · rw [hrange.old x hin, hmem]
      exact ⟨.inl, fun h => h.resolve_right hin⟩

/-- Requests that are made one after the other, and what they return. -/
def requests (os : Os) : Machine → List (ℤ × MmapAnswer) → Except Crash (List (ℕ × Err) × Machine)
  | s, [] => .ok ([], s)
  | s, (size, ans) :: rest => do
      let (r, err, s) ← s.uintptrMalloc os size ans
      let (rs, s) ← requests os s rest
      return ((r, err) :: rs, s)

/-- What the requests return, when the page is there. -/
theorem HugePage.requests_eq {k n : ℕ} (os : Os) (h : HugePage s b k n) (reqs : List (ℤ × MmapAnswer))
    (hk : k + reqs.length < 2 ^ 61) (hhuge : ∀ q ∈ reqs, 2 ^ 62 < q.1 ∧ q.1 < 2 ^ 63) :
    ∃ s', requests os s reqs =
        .ok ((List.range' k reqs.length).map fun i => (b + 32 + i % 2 * 2 ^ 63, none), s') ∧
      (∃ k', HugePage s' b k' n) ∧ ∀ x, (s'.mem x).isSome = (s.mem x).isSome := by
  induction reqs generalizing s k with
  | nil => exact ⟨s, rfl, ⟨k, h⟩, fun _ => rfl⟩
  | cons q reqs ih =>
      obtain ⟨size, ans⟩ := q
      rw [List.length_cons] at hk
      obtain ⟨hlo, hhi⟩ := hhuge _ List.mem_cons_self
      obtain ⟨s₁, hrun, h₁, hsome₁⟩ := h.malloc (by omega) hlo hhi ans
      obtain ⟨s', hrest, h', hsome⟩ :=
        ih h₁ (by omega) fun q hq => hhuge q (List.mem_cons_of_mem _ hq)
      refine ⟨s', ?_, h', fun x => (hsome x).trans (hsome₁ x)⟩
      rw [requests, hrun, ok_bind]
      dsimp only
      rw [hrest, ok_bind]
      rfl

/-- **Requests above `2 ^ 62` bytes are answered with memory that is not there.**  After every run
of smaller requests, the first such request, if the page is not refused, maps one page of the
operating system and returns its byte 32 without an error, and the further ones, fewer than
`2 ^ 60`, map nothing and return the address `2 ^ 63` above it and the same address in turn: so the
third block is the first one again.  The size of the block at byte 32, by `UintptrUsableSize`, is
`-2 ^ 63`. -/
theorem huge_malloc {mem : Mem} {acts : List Act} {reqs : List (ℤ × MmapAnswer)} {t : Sys}
    (hoffered : Offered (Sys.step os) (Allowed os) (Sys.boot mem) acts)
    (hrun : run (Sys.step os) (Sys.boot mem) acts = some t)
    (hhuge : ∀ q ∈ (size, ans) :: reqs, 2 ^ 62 < q.1 ∧ q.1 < 2 ^ 63) (hlen : reqs.length < 2 ^ 60)
    (hlegal : Legal os t.machine.mem (2 ^ os.pageBits + 2 ^ 20) ans) (hok : ¬ ans.Refused) :
    ∃ b s', requests os t.machine ((size, ans) :: reqs) =
        .ok ((List.range (reqs.length + 1)).map fun i => (b + 32 + i % 2 * 2 ^ 63, none), s') ∧
      s'.uintptrUsableSize (b + 32) = .ok (-2 ^ 63) ∧
      ∀ x, (s'.mem x).isSome = true ↔
        (t.machine.mem x).isSome = true ∨ (b ≤ x ∧ x < b + 2 ^ os.pageBits) := by
  obtain ⟨u, sh, hrun', h, -⟩ := run_rep hoffered
  cases hrun.symm.trans hrun'
  have hround : os.roundup 32 = 2 ^ os.pageBits := by
    have hpow : 2 ^ 12 ≤ 2 ^ os.pageBits := Nat.pow_le_pow_right (by decide) os.le_pageBits
    refine Nat.le_antisymm (Os.roundup_le (by omega) (Nat.dvd_refl _)) ?_
    refine Nat.le_of_dvd ?_ (Nat.dvd_mul_left _ _)
    exact Nat.lt_of_lt_of_le (by decide) (os.le_roundup 32)
  obtain ⟨hlo, hhi⟩ := hhuge _ List.mem_cons_self
  obtain ⟨b, s₁, hfirst, hpage, haligned, hsome₁⟩ := malloc_hugePage h.good hlo hhi
    (by rw [hround]; exact_mod_cast hlegal) hok
  obtain ⟨s', hrest, ⟨k, hpage'⟩, hsome⟩ := hpage.requests_eq os reqs (by omega)
    fun q hq => hhuge q (List.mem_cons_of_mem _ hq)
  refine ⟨b, s', ?_, ?_, fun x => ?_⟩
  · rw [requests, hfirst, ok_bind]
    dsimp only
    rw [hrest, ok_bind, List.range_eq_range', List.range'_succ]
    rfl
  · have hpageOf : pageOf (b + 32) = b := by
      obtain ⟨j, rfl⟩ := haligned
      rw [pageOf_eq]
      omega
    have hshl : shl 1 63 = -2 ^ 63 := by decide
    rw [Machine.uintptrUsableSize, if_neg (by omega), Machine.usableSize, hpageOf,
      hpage'.header.log_eq, deref_some, ok_bind, if_pos (show 63 ≠ 0 by decide), hshl]
    rfl
  · rw [hsome x, ← hround]
    exact hsome₁ x

theorem huge_malloc_brief :
    ∃ t b s', run (Sys.step page4k) (Sys.boot fun _ => none) brief = some t ∧
      requests page4k t.machine
          (List.replicate 3 (2 ^ 62 + 1, ⟨some (2 ^ 30), true, true⟩)) =
        .ok ([(b + 32, none), (b + 32 + 2 ^ 63, none), (b + 32, none)], s') := by
  obtain ⟨t, hrun, -, hmem⟩ := brief_ends
  have hlegal : Legal page4k t.machine.mem (2 ^ page4k.pageBits + 2 ^ 20)
      ⟨some (2 ^ 30), true, true⟩ := by
    intro p hp
    cases hp
    exact ⟨by decide, by decide, by decide, by decide, fun _ _ _ => by rw [hmem]⟩
  have hhuge : ∀ q ∈ List.replicate 3 ((2 ^ 62 + 1 : ℤ), (⟨some (2 ^ 30), true, true⟩ : MmapAnswer)),
      2 ^ 62 < q.1 ∧ q.1 < 2 ^ 63 := by
    simp [List.replicate]
  obtain ⟨b, s', hreqs, -⟩ := huge_malloc brief_offered hrun hhuge (by decide) hlegal
    (by simp [MmapAnswer.Refused])
  exact ⟨t, b, s', hrun, hreqs⟩

end Alloc
