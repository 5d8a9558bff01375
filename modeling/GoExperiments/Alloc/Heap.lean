import Mathlib.Algebra.BigOperators.Ring.Finset
import Mathlib.Data.Set.Card
import GoExperiments.Lib.Runs
import GoExperiments.Alloc.Client

/-!
# Clients of the allocator

A client calls the allocator in any order and stores into the blocks it has; the operating system
answers what it may.  What the allocator is for is said without pages or lists: `HeapStep`, on a
heap that has blocks of bytes at addresses.

* `Allowed` — what a client may do: it gives back, resizes and stores into blocks that it has, and
  asks for no more than `2 ^ 62` bytes at once.
* `heap_step` — one call: the process lives, and the heap makes a step.
* `blocks_intact`, `refines_heap` — all runs.
* `accounts`, `all_given_back` — the counters, and what is left when everything was given back.
-/

namespace Alloc

open ByteMemory Runs Go

/-! ## What the allocator is for -/

/-- The blocks that a client has, with their content. -/
abbrev Heap := ℕ → Option (List UInt8)

/-- A call, or a store of the client, with the answers that the operating system gives. -/
inductive Act where
  | malloc (size : ℤ) (ans : MmapAnswer)
  | calloc (size : ℤ) (ans : MmapAnswer)
  | realloc (p : ℕ) (size : ℤ) (ans : MmapAnswer) (ok : Bool)
  | free (p : ℕ) (ok : Bool)
  | store (p i : ℕ) (v : UInt8)
  | close (order : List (ℕ × Bool))

/-- A block at `p` that overlaps none that the client has. -/
structure Fresh (h : Heap) (p : ℕ) (bs : List UInt8) : Prop where
  ne_zero : p ≠ 0
  aligned : 16 ∣ p
  new : h p = none
  apart : ∀ q cs, h q = some cs → Apart p bs.length q cs.length

/-- The pointer and the error that a call returns, and the heap after it. -/
inductive HeapStep (h : Heap) : Act → ℕ → Err → Heap → Prop
  | mallocNil (ans : MmapAnswer) : HeapStep h (.malloc 0 ans) 0 none h
  /-- A request fails only where the operating system does. -/
  | mallocFailed (size : ℤ) (ans : MmapAnswer) (e : Errno) (hrefused : ans.Refused) :
      HeapStep h (.malloc size ans) 0 (some e) h
  | malloc (size : ℤ) (ans : MmapAnswer) (p : ℕ) (bs : List UInt8) (hfresh : Fresh h p bs)
      (hsize : size ≤ bs.length) : HeapStep h (.malloc size ans) p none (setAt h p (some bs))
  | callocNil (ans : MmapAnswer) : HeapStep h (.calloc 0 ans) 0 none h
  | callocFailed (size : ℤ) (ans : MmapAnswer) (e : Errno) (hrefused : ans.Refused) :
      HeapStep h (.calloc size ans) 0 (some e) h
  /-- The first `size` bytes are zero. -/
  | calloc (size : ℤ) (ans : MmapAnswer) (p : ℕ) (bs : List UInt8) (hfresh : Fresh h p bs)
      (hsize : size ≤ bs.length) (hzero : bs.take size.toNat = List.replicate size.toNat 0) :
      HeapStep h (.calloc size ans) p none (setAt h p (some bs))
  | free (p : ℕ) (ok : Bool) (err : Err) (herr : ok = true → err = none) :
      HeapStep h (.free p ok) 0 err (setAt h p none)
  /-- With no block, `malloc`. -/
  | reallocNil (size : ℤ) (ans : MmapAnswer) (ok : Bool) (r : ℕ) (err : Err) (h' : Heap)
      (hmalloc : HeapStep h (.malloc size ans) r err h') :
      HeapStep h (.realloc 0 size ans ok) r err h'
  /-- For no bytes, `free`. -/
  | reallocZero (p : ℕ) (ans : MmapAnswer) (ok : Bool) (err : Err) (herr : ok = true → err = none) :
      HeapStep h (.realloc p 0 ans ok) 0 err (setAt h p none)
  /-- The block is large enough. -/
  | reallocKept (p : ℕ) (size : ℤ) (ans : MmapAnswer) (ok : Bool) (bs : List UInt8)
      (hp : h p = some bs) (hsize : size < bs.length) : HeapStep h (.realloc p size ans ok) p none h
  /-- The client keeps the block it has. -/
  | reallocFailed (p : ℕ) (size : ℤ) (ans : MmapAnswer) (ok : Bool) (e : Errno)
      (hrefused : ans.Refused) : HeapStep h (.realloc p size ans ok) 0 (some e) h
  /-- The block moves, with all that was in it. -/
  | reallocMoved (p : ℕ) (size : ℤ) (ans : MmapAnswer) (ok : Bool) (r : ℕ) (err : Err)
      (bs cs : List UInt8) (hp : h p = some bs) (hfresh : Fresh (setAt h p none) r cs)
      (hsize : size ≤ cs.length) (hcontent : cs.take bs.length = bs)
      (herr : ok = true → err = none) :
      HeapStep h (.realloc p size ans ok) r err (setAt (setAt h p none) r (some cs))
  | store (p i : ℕ) (v : UInt8) (bs : List UInt8) (hp : h p = some bs) (hi : i < bs.length) :
      HeapStep h (.store p i v) 0 none (setAt h p (some (bs.set i v)))
  | close (order : List (ℕ × Bool)) (err : Err)
      (herr : (∀ entry ∈ order, entry.2 = true) → err = none) :
      HeapStep h (.close order) 0 err fun _ => none

/-! ## The process -/

/-- The process, what its client knows of its blocks, what the last call returned, and how many
calls failed since the allocator was new. -/
structure Sys where
  machine : Machine
  heap : Heap
  r : ℕ
  err : Err
  failed : ℕ

/-- What is in a block, by the size that the allocator says it has. -/
def contents (s : Machine) (p : ℕ) : Option (List UInt8) :=
  match s.usableSize p with
  | .ok n => readBytes s.mem p n.toNat
  | .error _ => none

namespace Sys

variable (os : Os) (s : Sys)

/-- `UintptrMalloc` or `UintptrCalloc` has returned: the client has the block, and looks into it. -/
def gave (m : Machine) (r : ℕ) (err : Err) : Sys where
  machine := m
  heap := if r = 0 then s.heap else setAt s.heap r (contents m r)
  r := r
  err := err
  failed := if err = none then s.failed else s.failed + 1

/-- One call, or one store; `none` is the end of the process. -/
def step : Act → Option Sys
  | .malloc size ans =>
      match s.machine.uintptrMalloc os size ans with
      | .ok (r, err, m) => some (s.gave m r err)
      | .error _ => none
  | .calloc size ans =>
      match s.machine.uintptrCalloc os size ans with
      | .ok (r, err, m) => some (s.gave m r err)
      | .error _ => none
  | .realloc p size ans ok =>
      match s.machine.uintptrRealloc os p size ans ok with
      | .ok (r, err, m) =>
          if p = 0 then some (s.gave m r err)
          else if size = 0 then some { s with machine := m, heap := setAt s.heap p none, r, err }
          else if r = p then some { s with machine := m, r, err }
          else if r = 0 then some (s.gave m r err)
          else some { s with
            machine := m
            heap := setAt (setAt s.heap p none) r (contents m r)
            r := r
            err := err }
      | .error _ => none
  | .free p ok =>
      match s.machine.uintptrFree p ok with
      | .ok (err, m) => some { s with machine := m, heap := setAt s.heap p none, r := 0, err := err }
      | .error _ => none
  | .store p i v => do
      let mem ← writeBytes s.machine.mem (p + i) [v]
      let bs ← s.heap p
      return { s with
        machine := { s.machine with mem := mem }
        heap := setAt s.heap p (some (bs.set i v))
        r := 0
        err := none }
  | .close order =>
      match s.machine.close order with
      | .ok (err, m) => some { machine := m, heap := fun _ => none, r := 0, err := err, failed := 0 }
      | .error _ => none

/-- A new process, in which the memory `mem` is mapped. -/
def boot (mem : Mem) : Sys := ⟨⟨mem, Allocator.zero⟩, fun _ => none, 0, none, 0⟩

end Sys

/-- What the client may do, and what the operating system may answer. -/
def Allowed (os : Os) (s : Sys) : Act → Prop
  | .malloc size ans => 0 ≤ size ∧ size ≤ 2 ^ 62 ∧
      (size ≠ 0 → Legal os s.machine.mem (asked os size.toNat) ans)
  | .calloc size ans => 0 ≤ size ∧ size ≤ 2 ^ 62 ∧
      (size ≠ 0 → Legal os s.machine.mem (asked os size.toNat) ans)
  | .realloc p size ans _ => (p = 0 → 0 ≤ size) ∧ (p ≠ 0 → (s.heap p).isSome = true) ∧
      size ≤ 2 ^ 62 ∧ (0 < size → Legal os s.machine.mem (asked os size.toNat) ans)
  | .free p _ => p ≠ 0 → (s.heap p).isSome = true
  | .store p i _ => ∃ bs, s.heap p = some bs ∧ i < bs.length
  | .close order => (order.map Prod.fst).Nodup ∧
      ∀ p, p ∈ order.map Prod.fst ↔ p ∈ s.machine.a.regs

/-- Every `munmap` in the course of it succeeds. -/
def Act.Clean : Act → Prop
  | .malloc _ ans | .calloc _ ans => ans.head = true ∧ ans.tail = true
  | .realloc _ _ ans ok => (ans.head = true ∧ ans.tail = true) ∧ ok = true
  | .free _ ok => ok = true
  | .store _ _ _ => True
  | .close order => ∀ entry ∈ order, entry.2 = true

/-! ## The heap that a state stands for -/

/-- The heap of the client is in the memory. -/
structure Rep (s : Sys) (sh : Shape) : Prop where
  good : Good s.machine sh
  busy : sh.Busy
  live : ∀ p, (s.heap p).isSome = true ↔ p ∈ sh.live
  content : ∀ p bs, s.heap p = some bs → readBytes s.machine.mem p (sh.width p) = some bs
  allocs : s.machine.a.allocs = int64 (sh.live.card + s.failed)

namespace Rep

variable {os : Os} {s : Sys} {sh : Shape} {p : ℕ} {ans : MmapAnswer}

theorem length {bs : List UInt8} (h : Rep s sh) (hp : s.heap p = some bs) :
    bs.length = sh.width p :=
  (readBytes_eq_some_iff.1 (h.content p bs hp)).1

theorem mem_live {bs : List UInt8} (h : Rep s sh) (hp : s.heap p = some bs) : p ∈ sh.live :=
  (h.live p).1 (by rw [hp]; rfl)

end Rep

theorem contents_of_good {m : Machine} {sh : Shape} {p : ℕ} (g : Good m sh) (hp : p ∈ sh.live) :
    ∃ bs, contents m p = some bs ∧ bs.length = sh.width p ∧
      readBytes m.mem p (sh.width p) = some bs := by
  obtain ⟨bs, hbs⟩ := exists_readBytes (g.mapped_block (g.placed.live_block p hp))
  refine ⟨bs, ?_, (readBytes_eq_some_iff.1 hbs).1, hbs⟩
  unfold contents
  rw [usableSize_spec g hp]
  exact hbs

namespace Rep

variable {s : Sys} {sh sh' : Shape} {p w : ℕ} {ans : MmapAnswer} {m : Machine}

/-- A block that keeps its place, its size and its bytes keeps its content. -/
theorem content_of_same {bs : List UInt8} (h : Rep s sh) (hp : s.heap p = some bs)
    (hwidth : sh'.width p = sh.width p) (hsame : Same s.machine.mem m.mem p (sh.width p)) :
    readBytes m.mem p (sh'.width p) = some bs := by
  rw [hwidth, readBytes_congr hsame]
  exact h.content p bs hp

theorem failed (h : Rep s sh) (hf : Failed s.machine sh ans m) (e : Errno) :
    Rep (s.gave m 0 (some e)) sh := by
  refine ⟨hf.good, h.busy, h.live, fun q bs hq => ?_, ?_⟩
  · exact h.content_of_same hq rfl (hf.same q (h.mem_live hq))
  · show m.a.allocs = int64 (sh.live.card + ((s.failed + 1 : ℕ) : ℤ))
    rw [hf.allocs, h.allocs, int64_int64_add, Nat.cast_succ, add_assoc]

/-- The block that was given out. -/
theorem fresh (h : Rep s sh) (hg : Given s.machine sh w p m sh') :
    ∃ bs, contents m p = some bs ∧ Fresh s.heap p bs ∧ bs.length = w ∧
      readBytes m.mem p (sh'.width p) = some bs := by
  have hp : p ∈ sh'.live := by rw [hg.live]; exact Finset.mem_insert_self _ _
  have hblock := hg.good.placed.live_block p hp
  obtain ⟨bs, hcontents, hlen, hread⟩ := contents_of_good hg.good hp
  refine ⟨bs, hcontents, ⟨hg.good.placed.ne_zero hblock, ?_, ?_, fun q cs hq => ?_⟩, ?_, hread⟩
  · exact (hg.good.placed.fits _ hblock.1).sixteen_dvd hblock.2
  · rw [← Option.not_isSome_iff_eq_none, h.live]
    exact hg.fresh
  · have hq' := h.mem_live hq
    have hqlive : q ∈ sh'.live := by rw [hg.live]; exact Finset.mem_insert_of_mem hq'
    have hapart := hg.good.placed.block_apart hblock (hg.good.placed.live_block q hqlive)
      fun heq => hg.fresh (heq ▸ hq')
    rwa [hg.width q hq', ← h.length hq, ← hlen] at hapart
  · rw [hlen]
    exact hg.width_new

theorem given (h : Rep s sh) (hg : Given s.machine sh w p m sh') : Rep (s.gave m p none) sh' := by
  obtain ⟨bs, hcontents, hfresh, -, hread⟩ := h.fresh hg
  have hheap : (s.gave m p none).heap = setAt s.heap p (some bs) := by
    rw [← hcontents]
    exact if_neg hfresh.ne_zero
  refine ⟨hg.good, hg.busy, fun q => ?_, fun q cs hq => ?_, ?_⟩
  · rw [hheap, hg.live, Finset.mem_insert]
    by_cases hqp : q = p
    · rw [hqp, setAt_self]
      exact ⟨fun _ => .inl rfl, fun _ => rfl⟩
    · rw [setAt_of_ne hqp, h.live]
      exact ⟨.inr, fun hor => hor.resolve_left hqp⟩
  · rw [hheap] at hq
    by_cases hqp : q = p
    · rw [hqp, setAt_self, Option.some.injEq] at hq
      rw [hqp, ← hq]
      exact hread
    · rw [setAt_of_ne hqp] at hq
      have hlive := h.mem_live hq
      exact h.content_of_same hq (hg.width q hlive) (hg.same q hlive)
  · show m.a.allocs = int64 (sh'.live.card + (s.failed : ℤ))
    rw [hg.allocs, h.allocs, hg.live, Finset.card_insert_of_notMem hg.fresh, int64_int64_add,
      Nat.cast_succ, add_right_comm]

theorem freed {ok : Bool} (h : Rep s sh) (hp : p ∈ sh.live) (hf : Freed s.machine sh p ok m sh')
    (r : ℕ) (err : Err) :
    Rep { s with machine := m, heap := setAt s.heap p none, r := r, err := err } sh' := by
  have hcard : (sh.live.erase p).card + 1 = sh.live.card := Finset.card_erase_add_one hp
  refine ⟨hf.good, hf.busy, fun q => ?_, fun q bs hq => ?_, ?_⟩
  · dsimp only
    rw [hf.live, Finset.mem_erase]
    by_cases hqp : q = p
    · rw [hqp, setAt_self]
      exact ⟨fun hsome => absurd hsome (by decide), fun hne => absurd rfl hne.1⟩
    · rw [setAt_of_ne hqp, h.live]
      exact ⟨fun hq => ⟨hqp, hq⟩, fun hq => hq.2⟩
  · dsimp only at hq
    have hqp : q ≠ p := by
      rintro rfl
      rw [setAt_self] at hq
      cases hq
    rw [setAt_of_ne hqp] at hq
    have hlive : q ∈ sh'.live := by
      rw [hf.live]
      exact Finset.mem_erase.2 ⟨hqp, h.mem_live hq⟩
    exact h.content_of_same hq (hf.width q hlive) (hf.same q hlive)
  · dsimp only
    rw [hf.allocs, h.allocs, hf.live, int64_int64_sub, ← hcard, Nat.cast_succ, add_right_comm,
      add_sub_cancel_right]

end Rep

/-- The first bytes of what was read. -/
theorem take_of_readBytes {m : Mem} {a n k : ℕ} {bs cs : List UInt8} (hkn : k ≤ n)
    (h : readBytes m a n = some cs) (h' : readBytes m a k = some bs) : cs.take k = bs := by
  obtain ⟨-, hcs⟩ := readBytes_eq_some_iff.1 h
  obtain ⟨hk, hbs⟩ := readBytes_eq_some_iff.1 h'
  refine List.ext_getElem? fun i => ?_
  rw [List.getElem?_take]
  split_ifs with hi
  · rw [← hcs i (by omega), hbs i hi]
  · rw [List.getElem?_eq_none (by omega)]

namespace Rep

variable {s : Sys} {sh sh' : Shape} {p size : ℕ} {ans : MmapAnswer} {m : Machine}

/-- The block that was moved. -/
theorem moved_fresh {r : ℕ} {ok : Bool} {bs : List UInt8} (h : Rep s sh) (hp : s.heap p = some bs)
    (hsize : sh.width p ≤ size) (hm : Moved s.machine sh p size r ok m sh') :
    ∃ cs, contents m r = some cs ∧ Fresh (setAt s.heap p none) r cs ∧ size ≤ cs.length ∧
      cs.take bs.length = bs ∧ readBytes m.mem r (sh'.width r) = some cs := by
  have hrp : r ≠ p := fun heq => hm.fresh (heq ▸ h.mem_live hp)
  have hr : r ∈ sh'.live := by
    rw [hm.live]
    exact Finset.mem_erase.2 ⟨hrp, Finset.mem_insert_self _ _⟩
  have hblock := hm.good.placed.live_block r hr
  obtain ⟨cs, hcontents, hlen, hread⟩ := contents_of_good hm.good hr
  have hroom := hm.room
  refine ⟨cs, hcontents, ⟨hm.good.placed.ne_zero hblock, ?_, ?_, fun q ds hq => ?_⟩, by omega, ?_,
    hread⟩
  · exact (hm.good.placed.fits _ hblock.1).sixteen_dvd hblock.2
  · rw [setAt_of_ne hrp, ← Option.not_isSome_iff_eq_none, h.live]
    exact hm.fresh
  · have hqp : q ≠ p := by
      rintro rfl
      rw [setAt_self] at hq
      cases hq
    rw [setAt_of_ne hqp] at hq
    have hq' := h.mem_live hq
    have hqlive : q ∈ sh'.live := by
      rw [hm.live]
      exact Finset.mem_erase.2 ⟨hqp, Finset.mem_insert_of_mem hq'⟩
    have hapart := hm.good.placed.block_apart hblock (hm.good.placed.live_block q hqlive)
      fun heq => hm.fresh (heq ▸ hq')
    rwa [hm.width q hq' hqp, ← h.length hq, ← hlen] at hapart
  · -- the first bytes are those of the old block
    have hold : readBytes m.mem r bs.length = some bs := by
      rw [h.length hp, hm.content]
      exact h.content p bs hp
    have hlenp := h.length hp
    exact take_of_readBytes (by omega) hread hold

theorem moved {r : ℕ} {ok : Bool} {bs : List UInt8} (h : Rep s sh) (hp : s.heap p = some bs)
    (hsize : sh.width p ≤ size) (hm : Moved s.machine sh p size r ok m sh') (err : Err) :
    Rep { s with
      machine := m, heap := setAt (setAt s.heap p none) r (contents m r), r := r, err := err }
      sh' := by
  obtain ⟨cs, hcontents, -, -, -, hread⟩ := h.moved_fresh hp hsize hm
  have hplive := h.mem_live hp
  have hrp : r ≠ p := fun heq => hm.fresh (heq ▸ hplive)
  rw [hcontents]
  have hcard : sh'.live.card = sh.live.card := by
    rw [hm.live, Finset.card_erase_of_mem (Finset.mem_insert_of_mem hplive),
      Finset.card_insert_of_notMem hm.fresh, Nat.add_sub_cancel]
  refine ⟨hm.good, hm.busy, fun q => ?_, fun q ds hq => ?_, ?_⟩
  · dsimp only
    rw [hm.live, Finset.mem_erase, Finset.mem_insert]
    by_cases hqr : q = r
    · rw [hqr, setAt_self]
      exact ⟨fun _ => ⟨hrp, .inl rfl⟩, fun _ => rfl⟩
    · rw [setAt_of_ne hqr]
      by_cases hqp : q = p
      · rw [hqp, setAt_self]
        exact ⟨fun hsome => absurd hsome (by decide), fun hne => absurd rfl hne.1⟩
      · rw [setAt_of_ne hqp, h.live]
        exact ⟨fun hq => ⟨hqp, .inr hq⟩, fun hq => hq.2.resolve_left hqr⟩
  · dsimp only at hq
    by_cases hqr : q = r
    · rw [hqr, setAt_self, Option.some.injEq] at hq
      rw [hqr, ← hq]
      exact hread
    · rw [setAt_of_ne hqr] at hq
      have hqp : q ≠ p := by
        rintro rfl
        rw [setAt_self] at hq
        cases hq
      rw [setAt_of_ne hqp] at hq
      have hlive := h.mem_live hq
      exact h.content_of_same hq (hm.width q hlive hqp) (hm.same q hlive hqp)
  · dsimp only
    rw [hm.allocs, h.allocs, hcard, int64_int64]

end Rep

/-! ## One step -/

variable {os : Os} {s : Sys} {sh : Shape}

theorem Rep.zero (h : Rep s sh) : s.heap 0 = none := by
  rw [← Option.not_isSome_iff_eq_none, h.live]
  exact fun hlive => h.good.placed.ne_zero (h.good.placed.live_block 0 hlive) rfl

/-- A request for some bytes, by `UintptrMalloc` or by `UintptrCalloc`: `Q` is what the call says of
the block beyond its size. -/
theorem request_step (os : Os) {n : ℕ} {ans : MmapAnswer} {a : Act}
    {out : Except Crash (ℕ × Err × Machine)} {Q : ℕ → Machine → Prop} (h : Rep s sh)
    (hpos : 0 < n) (hle : n ≤ 2 ^ 62)
    (hout : (∃ e m, out = .ok (0, some e, m) ∧ Failed s.machine sh ans m) ∨
      ∃ p m sh', out = .ok (p, none, m) ∧ Given s.machine sh (usable os n) p m sh' ∧ Q p m)
    (hfailed : ∀ e, ans.Refused → HeapStep s.heap a 0 (some e) s.heap)
    (hgiven : ∀ p m bs, Q p m → Fresh s.heap p bs → n ≤ bs.length →
      readBytes m.mem p bs.length = some bs → HeapStep s.heap a p none (setAt s.heap p (some bs))) :
    ∃ r err m sh', out = .ok (r, err, m) ∧ Rep (s.gave m r err) sh' ∧
      HeapStep s.heap a r err (s.gave m r err).heap ∧
      Frame s.machine sh m sh' (ans.head = true ∧ ans.tail = true) := by
  obtain ⟨e, m, hrun, hf⟩ | ⟨p, m, sh', hrun, hg, hQ⟩ := hout
  · exact ⟨0, some e, m, sh, hrun, h.failed hf e, hfailed e hf.refused, hf.frame⟩
  · obtain ⟨bs, hcontents, hfresh, hlen, hread⟩ := h.fresh hg
    have hheap : (s.gave m p none).heap = setAt s.heap p (some bs) := by
      rw [← hcontents]
      exact if_neg hfresh.ne_zero
    refine ⟨p, none, m, sh', hrun, h.given hg, ?_, hg.frame.mono fun _ => trivial⟩
    rw [hheap]
    rw [hg.width_new, ← hlen] at hread
    exact hgiven p m bs hQ hfresh (hlen ▸ le_usable hpos hle) hread

/-- `UintptrMalloc`. -/
theorem malloc_step {size : ℤ} {ans : MmapAnswer} (h : Rep s sh)
    (ha : Allowed os s (.malloc size ans)) :
    ∃ r err m sh', s.machine.uintptrMalloc os size ans = .ok (r, err, m) ∧
      Rep (s.gave m r err) sh' ∧
      HeapStep s.heap (.malloc size ans) r err (s.gave m r err).heap ∧
      Frame s.machine sh m sh' (ans.head = true ∧ ans.tail = true) := by
  obtain ⟨hlo, hhi, hlegal⟩ := ha
  by_cases hzero : size = 0
  · subst hzero
    exact ⟨0, none, s.machine, sh, rfl, ⟨h.good, h.busy, h.live, h.content, h.allocs⟩,
      .mallocNil ans, .refl_of_mem rfl⟩
  · obtain ⟨n, rfl⟩ := Int.eq_ofNat_of_zero_le hlo
    have hspec := uintptrMalloc_spec h.good h.busy (by omega) (by omega) (hlegal hzero)
    refine request_step os (Q := fun _ _ => True) h (by omega) (by omega) ?_
      (fun e hrefused => .mallocFailed _ ans e hrefused)
      fun p m bs _ hfresh hle _ => .malloc _ ans p bs hfresh (Int.ofNat_le.2 hle)
    exact hspec.imp_right fun ⟨p, m, sh', hrun, hg⟩ => ⟨p, m, sh', hrun, hg, trivial⟩

/-- `UintptrCalloc`. -/
theorem calloc_step {size : ℤ} {ans : MmapAnswer} (h : Rep s sh)
    (ha : Allowed os s (.calloc size ans)) :
    ∃ r err m sh', s.machine.uintptrCalloc os size ans = .ok (r, err, m) ∧
      Rep (s.gave m r err) sh' ∧
      HeapStep s.heap (.calloc size ans) r err (s.gave m r err).heap ∧
      Frame s.machine sh m sh' (ans.head = true ∧ ans.tail = true) := by
  obtain ⟨hlo, hhi, hlegal⟩ := ha
  by_cases hzero : size = 0
  · subst hzero
    exact ⟨0, none, s.machine, sh, rfl, ⟨h.good, h.busy, h.live, h.content, h.allocs⟩,
      .callocNil ans, .refl_of_mem rfl⟩
  · obtain ⟨n, rfl⟩ := Int.eq_ofNat_of_zero_le hlo
    refine request_step os h (by omega) (by omega)
      (uintptrCalloc_spec h.good h.busy (by omega) (by omega) (hlegal hzero))
      (fun e hrefused => .callocFailed _ ans e hrefused) fun p m bs hread hfresh hle hbs => ?_
    -- the bytes that were asked for were cleared
    exact .calloc _ ans p bs hfresh (Int.ofNat_le.2 hle) (take_of_readBytes hle hbs hread)

/-- `UintptrFree`. -/
theorem free_step {p : ℕ} {ok : Bool} (h : Rep s sh) (ha : Allowed os s (.free p ok)) :
    ∃ err m sh', s.machine.uintptrFree p ok = .ok (err, m) ∧ (ok = true → err = none) ∧
      (∀ r, Rep { s with machine := m, heap := setAt s.heap p none, r := r, err := err } sh') ∧
      Frame s.machine sh m sh' (ok = true) := by
  by_cases hzero : p = 0
  · subst hzero
    have hheap : setAt s.heap 0 none = s.heap := by
      funext q
      by_cases hq : q = 0
      · rw [hq, setAt_self, h.zero]
      · exact setAt_of_ne hq
    refine ⟨none, s.machine, sh, rfl, fun _ => rfl, fun r => ?_, .refl_of_mem rfl⟩
    rw [hheap]
    exact ⟨h.good, h.busy, h.live, h.content, h.allocs⟩
  · have hlive := (h.live p).1 (ha hzero)
    obtain ⟨err, m, sh', hrun, herr, hfreed⟩ := uintptrFree_spec h.good h.busy hlive ok
    exact ⟨err, m, sh', hrun, herr, fun r => h.freed hlive hfreed r err, hfreed.frame⟩

/-- `UintptrRealloc`, of a block that the client has, for some bytes. -/
theorem realloc_step {p : ℕ} {size : ℤ} {ans : MmapAnswer} {ok : Bool} {bs : List UInt8}
    (h : Rep s sh) (hp : s.heap p = some bs) (hzero : size ≠ 0) (hhi : size ≤ 2 ^ 62)
    (hlegal : 0 < size → Legal os s.machine.mem (asked os size.toNat) ans) :
    ∃ s' sh', s.step os (.realloc p size ans ok) = some s' ∧ Rep s' sh' ∧
      HeapStep s.heap (.realloc p size ans ok) s'.r s'.err s'.heap ∧
      Frame s.machine sh s'.machine sh' ((ans.head = true ∧ ans.tail = true) ∧ ok = true) := by
  have hlive := h.mem_live hp
  have hp0 := h.good.placed.ne_zero (h.good.placed.live_block p hlive)
  have hlen := h.length hp
  by_cases hkept : size < bs.length
  · -- the block is large enough
    have hrun : s.machine.uintptrRealloc os p size ans ok = .ok (p, none, s.machine) := by
      rw [Machine.uintptrRealloc, if_neg hp0, if_neg hzero, Machine.uintptrUsableSize, if_neg hp0,
        usableSize_spec h.good hlive, ok_bind, if_pos (by omega)]
      rfl
    refine ⟨{ s with r := p, err := none }, sh, ?_,
      ⟨h.good, h.busy, h.live, h.content, h.allocs⟩, .reallocKept p size ans ok bs hp hkept,
      .refl_of_mem rfl⟩
    rw [Sys.step, hrun]
    dsimp only
    rw [if_neg hp0, if_neg hzero, if_pos rfl]
  · obtain ⟨n, rfl⟩ := Int.eq_ofNat_of_zero_le (show 0 ≤ size by omega)
    have hlegal' := hlegal (by omega)
    rw [Int.toNat_natCast] at hlegal'
    obtain ⟨e, m, hrun, hfailed⟩ | ⟨r, err, m, sh', hrun, herr, hmoved⟩ :=
      uintptrRealloc_spec h.good h.busy hlive (by omega) (by omega) hlegal' ok
    · refine ⟨s.gave m 0 (some e), sh, ?_, h.failed hfailed e,
        .reallocFailed p _ ans ok e hfailed.refused, hfailed.frame.mono fun hc => hc.1⟩
      rw [Sys.step, hrun]
      dsimp only
      rw [if_neg hp0, if_neg hzero, if_neg (Ne.symm hp0), if_pos rfl]
    · obtain ⟨cs, hcontents, hfresh, hsize, htake, -⟩ := h.moved_fresh hp (by omega) hmoved
      have hrp : r ≠ p := fun heq => hmoved.fresh (heq ▸ hlive)
      refine ⟨_, sh', ?_, h.moved hp (by omega) hmoved err, ?_, hmoved.frame.mono fun hc => hc.2⟩
      · rw [Sys.step, hrun]
        dsimp only
        rw [if_neg hp0, if_neg hzero, if_neg hrp, if_neg hfresh.ne_zero]
      · dsimp only
        rw [hcontents]
        exact .reallocMoved p _ ans ok r err bs cs hp hfresh (by omega) htake herr

/-- One byte of what is read was stored. -/
theorem readBytes_put_one {m : Mem} {a n i : ℕ} {v : UInt8} {bs : List UInt8}
    (h : readBytes m a n = some bs) :
    readBytes (put m (a + i) [v]) a n = some (bs.set i v) := by
  obtain ⟨hlen, hbs⟩ := readBytes_eq_some_iff.1 h
  refine readBytes_eq_some_iff.2 ⟨by rw [List.length_set, hlen], fun j hj => ?_⟩
  unfold put
  rw [List.length_singleton, List.getElem?_set]
  by_cases hij : i = j
  · rw [if_pos (by omega), if_pos hij, if_pos (by omega), hij, Nat.sub_self]
    rfl
  · rw [if_neg (by omega), if_neg hij, hbs j hj]

/-- A store of the client. -/
theorem store_step {p i : ℕ} {v : UInt8} {bs : List UInt8} (h : Rep s sh)
    (hp : s.heap p = some bs) (hi : i < bs.length) :
    ∃ s' sh', s.step os (.store p i v) = some s' ∧ Rep s' sh' ∧
      HeapStep s.heap (.store p i v) s'.r s'.err s'.heap ∧
      Frame s.machine sh s'.machine sh' True := by
  have hlive := h.mem_live hp
  have hlen := h.length hp
  obtain ⟨hwrite, hgood, hsame, hframe⟩ := h.good.put hlive (p + i) [v] (by omega)
    (by rw [List.length_singleton]; omega)
  refine ⟨{ s with
      machine := { s.machine with mem := put s.machine.mem (p + i) [v] }
      heap := setAt s.heap p (some (bs.set i v))
      r := 0
      err := none }, sh, ?_, ⟨hgood, h.busy, fun q => ?_, fun q cs hq => ?_, h.allocs⟩,
    .store p i v bs hp hi, hframe⟩
  · rw [Sys.step, hwrite, hp]
    rfl
  · dsimp only
    by_cases hqp : q = p
    · rw [hqp, setAt_self]
      exact ⟨fun _ => hlive, fun _ => rfl⟩
    · rw [setAt_of_ne hqp]
      exact h.live q
  · dsimp only at hq ⊢
    by_cases hqp : q = p
    · rw [hqp, setAt_self, Option.some.injEq] at hq
      rw [hqp, ← hq]
      exact readBytes_put_one (h.content p bs hp)
    · rw [setAt_of_ne hqp] at hq
      rw [readBytes_congr (hsame q (h.mem_live hq) hqp)]
      exact h.content q cs hq

/-- **One call**: the process lives, and the heap makes a step. -/
theorem heap_step {a : Act} (h : Rep s sh) (ha : Allowed os s a) :
    ∃ s' sh', s.step os a = some s' ∧ Rep s' sh' ∧ HeapStep s.heap a s'.r s'.err s'.heap ∧
      Frame s.machine sh s'.machine sh' a.Clean := by
  cases a with
  | malloc size ans =>
      obtain ⟨r, err, m, sh', hrun, hrep, hstep, hframe⟩ := malloc_step h ha
      exact ⟨_, sh', by rw [Sys.step, hrun], hrep, hstep, hframe⟩
  | calloc size ans =>
      obtain ⟨r, err, m, sh', hrun, hrep, hstep, hframe⟩ := calloc_step h ha
      exact ⟨_, sh', by rw [Sys.step, hrun], hrep, hstep, hframe⟩
  | realloc p size ans ok =>
      obtain ⟨hnil, hlive, hhi, hlegal⟩ := ha
      by_cases hp0 : p = 0
      · -- `malloc`
        subst hp0
        have hlo := hnil rfl
        have ha' : Allowed os s (.malloc size ans) :=
          ⟨hlo, hhi, fun hne => hlegal (by omega)⟩
        obtain ⟨r, err, m, sh', hrun, hrep, hstep, hframe⟩ := malloc_step h ha'
        refine ⟨_, sh', ?_, hrep, .reallocNil size ans ok r err _ hstep, hframe.mono fun hc => hc.1⟩
        rw [Sys.step, Machine.uintptrRealloc, if_pos rfl, hrun]
        rfl
      · obtain ⟨bs, hbs⟩ := Option.isSome_iff_exists.1 (hlive hp0)
        by_cases hzero : size = 0
        · -- `free`
          subst hzero
          have ha' : Allowed os s (.free p ok) := fun _ => hlive hp0
          obtain ⟨err, m, sh', hrun, herr, hrep, hframe⟩ := free_step h ha'
          have hrun' : s.machine.uintptrRealloc os p 0 ans ok = .ok (0, err, m) := by
            rw [Machine.uintptrRealloc, if_neg hp0, if_pos rfl, hrun]
            rfl
          refine ⟨_, sh', ?_, hrep 0, .reallocZero p ans ok err herr, hframe.mono fun hc => hc.2⟩
          rw [Sys.step, hrun']
          dsimp only
          rw [if_neg hp0, if_pos rfl]
        · exact realloc_step h hbs hzero hhi hlegal
  | free p ok =>
      obtain ⟨err, m, sh', hrun, herr, hrep, hframe⟩ := free_step h ha
      exact ⟨_, sh', by rw [Sys.step, hrun], hrep 0, .free p ok err herr, hframe⟩
  | store p i v =>
      obtain ⟨bs, hbs, hi⟩ := ha
      exact store_step h hbs hi
  | close order =>
      obtain ⟨err, m, hrun, herr, ha', hgood, hframe⟩ := close_spec h.good ha.1 ha.2
      refine ⟨⟨m, fun _ => none, 0, err, 0⟩, Shape.empty, by rw [Sys.step, hrun],
        ⟨hgood, fun b hb => absurd hb (Finset.notMem_empty b), fun p => ?_,
          fun p bs hp => (by cases hp), ?_⟩, .close order err herr, hframe⟩
      · exact ⟨fun hsome => absurd hsome (by simp), fun hmem => absurd hmem (Finset.notMem_empty p)⟩
      · dsimp only
        rw [ha']
        exact int64_zero.symm

/-! ## Runs -/

theorem rep_boot (mem : Mem) : Rep (Sys.boot mem) Shape.empty :=
  ⟨good_zero mem, fun b hb => absurd hb (Finset.notMem_empty b),
    fun p => ⟨fun h => absurd h (by simp [Sys.boot]), fun h => absurd h (Finset.notMem_empty p)⟩,
    fun p bs h => (by cases h), int64_zero.symm⟩

/-- **Every run of allowed calls goes to its end**, and its last state stands for a heap. -/
theorem run_rep {mem : Mem} {acts : List Act}
    (hoffered : Offered (Sys.step os) (Allowed os) (Sys.boot mem) acts) :
    ∃ t sh, run (Sys.step os) (Sys.boot mem) acts = some t ∧ Rep t sh ∧
      Frame (Sys.boot mem).machine Shape.empty t.machine sh (∀ a ∈ acts, a.Clean) := by
  induction acts using List.reverseRecOn with
  | nil => exact ⟨_, _, rfl, rep_boot mem, .refl_of_mem rfl⟩
  | append_singleton acts a ih =>
      obtain ⟨t, sh, hrun, hrep, hframe⟩ := ih (offered_left hoffered)
      obtain ⟨t', sh', hstep, hrep', -, hframe'⟩ := heap_step hrep (hoffered acts a [] t rfl hrun)
      refine ⟨t', sh', run_concat_eq_some.2 ⟨t, hrun, hstep⟩, hrep', (hframe.trans hframe').mono ?_⟩
      intro hclean
      exact ⟨fun b hb => hclean b (List.mem_append_left _ hb), hclean a (by simp)⟩

/-- A machine with pages of 4096 bytes. -/
def page4k : Os := ⟨12, by decide, by decide⟩

/-- Where nothing was mapped before, a range above all pages may be mapped. -/
theorem legal_of_regs {acts : List Act} {t : Sys} {p n : ℕ}
    (hoffered : Offered (Sys.step os) (Allowed os) (Sys.boot fun _ => none) acts)
    (hclean : ∀ a ∈ acts, a.Clean)
    (hrun : run (Sys.step os) (Sys.boot fun _ => none) acts = some t)
    (hfits : 0 < n ∧ 0 < p ∧ 2 ^ os.pageBits ∣ p ∧ p + n ≤ 2 ^ 47)
    (habove : ∀ b ∈ t.machine.a.regs, b + ((loadInt t.machine.mem (b + 16)).getD 0).toNat ≤ p) :
    Legal os t.machine.mem n ⟨some p, true, true⟩ := by
  obtain ⟨u, sh, hrun', h, hframe⟩ := run_rep hoffered
  cases hrun.symm.trans hrun'
  intro q hq
  cases hq
  obtain ⟨hn, hp, hdvd, hhigh⟩ := hfits
  refine ⟨by omega, hp, hdvd, by omega, fun x hx _ => ?_⟩
  rw [← Option.not_isSome_iff_eq_none]
  intro hsome
  obtain ⟨b, hb, hlo, hhi⟩ | ⟨hold, -⟩ := hframe.tight hclean x hsome
  · have hle := habove b (h.good.regs ▸ hb)
    rw [(h.good.header b hb).size_eq, Option.getD_some, Int.toNat_natCast] at hle
    omega
  · cases hold

/-- A client that asks for 11 bytes, stores one, moves the block to a larger one, asks for 9 cleared
bytes, gives the first block back and closes the allocator. -/
def brief : List Act :=
  [.malloc 11 ⟨some (2 ^ 30), true, true⟩, .store (2 ^ 30 + 32) 3 7,
    .realloc (2 ^ 30 + 32) 100 ⟨some (2 ^ 31), true, true⟩ true,
    .calloc 9 ⟨some (2 ^ 32), true, true⟩, .free (2 ^ 31 + 32) true, .close [(2 ^ 32, true)]]

theorem brief_clean : ∀ a ∈ brief, a.Clean := by
  unfold brief
  simp [Act.Clean]

/-- The process after the first `k` of these calls. -/
abbrev briefly (k : ℕ) : Option Sys :=
  run (Sys.step page4k) (Sys.boot fun _ => none) (brief.take k)

theorem briefly_succ {k : ℕ} {a : Act} (ha : brief[k]? = some a)
    (h : Offered (Sys.step page4k) (Allowed page4k) (Sys.boot fun _ => none) (brief.take k))
    (hallowed : ∀ t ∈ briefly k, Allowed page4k t a) :
    Offered (Sys.step page4k) (Allowed page4k) (Sys.boot fun _ => none) (brief.take (k + 1)) := by
  rw [List.take_add_one, ha]
  exact offered_concat.2 ⟨h, hallowed⟩

theorem brief_offered :
    Offered (Sys.step page4k) (Allowed page4k) (Sys.boot fun _ => none) brief := by
  have hclean : ∀ k, ∀ a ∈ brief.take k, a.Clean := fun k a ha =>
    brief_clean a (List.mem_of_mem_take ha)
  -- where the pages are before each of the three mappings
  have hregs₀ : ∀ t ∈ briefly 0, ∀ b ∈ t.machine.a.regs,
      b + ((loadInt t.machine.mem (b + 16)).getD 0).toNat ≤ 2 ^ 30 := by decide +kernel
  have hregs₂ : ∀ t ∈ briefly 2, ∀ b ∈ t.machine.a.regs,
      b + ((loadInt t.machine.mem (b + 16)).getD 0).toNat ≤ 2 ^ 31 := by decide +kernel
  have hregs₃ : ∀ t ∈ briefly 3, ∀ b ∈ t.machine.a.regs,
      b + ((loadInt t.machine.mem (b + 16)).getD 0).toNat ≤ 2 ^ 32 := by decide +kernel
  -- the blocks that are stored into, moved and given back
  have hstore : ∀ t ∈ briefly 1, ∃ bs ∈ t.heap (2 ^ 30 + 32), 3 < bs.length := by decide +kernel
  have hmove : ∀ t ∈ briefly 2, (t.heap (2 ^ 30 + 32)).isSome = true := by decide +kernel
  have hfree : ∀ t ∈ briefly 4, (t.heap (2 ^ 31 + 32)).isSome = true := by decide +kernel
  have hclose : ∀ t ∈ briefly 5, t.machine.a.regs = {2 ^ 32} := by decide +kernel
  have h₀ : Offered (Sys.step page4k) (Allowed page4k) (Sys.boot fun _ => none) (brief.take 0) :=
    offered_nil _ _
  have h₁ := briefly_succ (k := 0) rfl h₀ fun t ht => ⟨by decide, by decide,
    fun _ => legal_of_regs h₀ (hclean 0) ht (by decide) (hregs₀ t ht)⟩
  have h₂ := briefly_succ (k := 1) rfl h₁ hstore
  have h₃ := briefly_succ (k := 2) rfl h₂ fun t ht => ⟨fun h => absurd h (by decide),
    fun _ => hmove t ht, by decide,
    fun _ => legal_of_regs h₂ (hclean 2) ht (by decide) (hregs₂ t ht)⟩
  have h₄ := briefly_succ (k := 3) rfl h₃ fun t ht => ⟨by decide, by decide,
    fun _ => legal_of_regs h₃ (hclean 3) ht (by decide) (hregs₃ t ht)⟩
  have h₅ := briefly_succ (k := 4) rfl h₄ fun t ht _ => hfree t ht
  refine briefly_succ (k := 5) rfl h₅ fun t ht => ⟨by decide, fun p => ?_⟩
  rw [hclose t ht, Finset.mem_singleton]
  exact List.mem_singleton
theorem brief_ends : ∃ t, run (Sys.step page4k) (Sys.boot fun _ => none) brief = some t ∧
    (∀ p, t.heap p = none) ∧ t.machine.mem = fun _ => none := by
  obtain ⟨t, sh, hrun, h, hframe⟩ := run_rep brief_offered
  obtain ⟨s, -, hstep⟩ := run_concat_eq_some.1
    (show run (Sys.step page4k) _ (brief.take 5 ++ [.close [(2 ^ 32, true)]]) = some t from hrun)
  have hheap : ∀ p, t.heap p = none := by
    intro p
    rw [Sys.step] at hstep
    split at hstep
    · cases hstep
      rfl
    · cases hstep
  have hlive : sh.live = ∅ := by
    refine Finset.eq_empty_of_forall_notMem fun p hp => ?_
    have hsome := (h.live p).2 hp
    rw [hheap p] at hsome
    cases hsome
  exact ⟨t, hrun, hheap, hframe.mem_eq brief_clean h.busy hlive⟩

/-- **The blocks of the client are its own.**  However often and in whatever order a client calls
the allocator, the process does not crash; every block the client has is aligned to 16 bytes, has
no byte in common with another one, and holds byte for byte what the client knows to be in it; and
memory that was mapped before the allocator's is as it was. -/
theorem blocks_intact {mem : Mem} {acts : List Act}
    (hoffered : Offered (Sys.step os) (Allowed os) (Sys.boot mem) acts) :
    ∃ t, run (Sys.step os) (Sys.boot mem) acts = some t ∧
      (∀ p bs, t.heap p = some bs →
        p ≠ 0 ∧ 16 ∣ p ∧ readBytes t.machine.mem p bs.length = some bs ∧
          ∀ q cs, t.heap q = some cs → q ≠ p → Apart p bs.length q cs.length) ∧
      ∀ x, (mem x).isSome = true → t.machine.mem x = mem x := by
  obtain ⟨t, sh, hrun, h, hframe⟩ := run_rep hoffered
  refine ⟨t, hrun, fun p bs hp => ?_, fun x hx => ?_⟩
  · have hblock := h.good.placed.live_block p (h.mem_live hp)
    refine ⟨h.good.placed.ne_zero hblock, (h.good.placed.fits _ hblock.1).sixteen_dvd hblock.2, ?_,
      fun q cs hq hne => ?_⟩
    · rw [h.length hp]
      exact h.content p bs hp
    · rw [h.length hp, h.length hq]
      exact h.good.placed.block_apart hblock (h.good.placed.live_block q (h.mem_live hq)) hne.symm
  · refine (hframe.foreign x hx ?_).1
    rintro ⟨b, hb, -⟩
    exact Finset.notMem_empty b hb

theorem blocks_intact_brief : ∃ t bs cs, briefly 4 = some t ∧
    t.heap (2 ^ 31 + 32) = some bs ∧ readBytes t.machine.mem (2 ^ 31 + 32) bs.length = some bs ∧
      t.heap (2 ^ 32 + 32) = some cs ∧ Apart (2 ^ 31 + 32) bs.length (2 ^ 32 + 32) cs.length := by
  obtain ⟨t, hrun, hblocks, -⟩ := blocks_intact
    (offered_left (show Offered (Sys.step page4k) (Allowed page4k) (Sys.boot fun _ => none)
      (brief.take 4 ++ brief.drop 4) from brief_offered))
  obtain ⟨bs, hbs⟩ := Option.isSome_iff_exists.1 ((show ∀ t ∈ briefly 4,
    (t.heap (2 ^ 31 + 32)).isSome = true by decide +kernel) t hrun)
  obtain ⟨cs, hcs⟩ := Option.isSome_iff_exists.1 ((show ∀ t ∈ briefly 4,
    (t.heap (2 ^ 32 + 32)).isSome = true by decide +kernel) t hrun)
  obtain ⟨-, -, hread, hapart⟩ := hblocks _ bs hbs
  exact ⟨t, bs, cs, hrun, hbs, hread, hcs, hapart _ cs hcs (by decide)⟩

/-- **Every call does what a heap does.** -/
theorem refines_heap {mem : Mem} {acts : List Act}
    (hoffered : Offered (Sys.step os) (Allowed os) (Sys.boot mem) acts) :
    EachStep (Sys.step os)
      (fun t a => ∀ t', t.step os a = some t' → HeapStep t.heap a t'.r t'.err t'.heap)
      (Sys.boot mem) acts := by
  intro pre a post t _ hsplit hrun _ t' hstep
  rw [hsplit] at hoffered
  obtain ⟨u, sh, hrun', h, -⟩ := run_rep (offered_left hoffered)
  cases hrun.symm.trans hrun'
  obtain ⟨u', -, hstep', -, hheap, -⟩ := heap_step h (hoffered pre a post t rfl hrun)
  cases hstep.symm.trans hstep'
  exact hheap

theorem refines_heap_brief :
    EachStep (Sys.step page4k)
      (fun t a => ∀ t', t.step page4k a = some t' → HeapStep t.heap a t'.r t'.err t'.heap)
      (Sys.boot fun _ => none) brief :=
  refines_heap brief_offered

/-- **The accounts are right**: after every run the counters say how many pages there are, how many
bytes they have by their headers, and how many blocks the client has, but that every failed call
is counted as a block until the allocator is closed.  Only this last counter can wrap. -/
theorem accounts {mem : Mem} {acts : List Act}
    (hoffered : Offered (Sys.step os) (Allowed os) (Sys.boot mem) acts) :
    ∃ t, run (Sys.step os) (Sys.boot mem) acts = some t ∧
      t.machine.a.mmaps = t.machine.a.regs.card ∧
      t.machine.a.bytes = ∑ b ∈ t.machine.a.regs, (loadInt t.machine.mem (b + 16)).getD 0 ∧
      t.machine.a.allocs = int64 ({p | (t.heap p).isSome = true}.ncard + t.failed) := by
  obtain ⟨t, sh, hrun, h, -⟩ := run_rep hoffered
  have hset : {p | (t.heap p).isSome = true} = (sh.live : Set ℕ) := Set.ext fun p => h.live p
  refine ⟨t, hrun, ?_, ?_, ?_⟩
  · rw [h.good.regs]
    exact h.good.mmaps
  · rw [h.good.regs, h.good.bytes, Nat.cast_sum]
    refine Finset.sum_congr rfl fun b hb => ?_
    rw [(h.good.header b hb).size_eq]
    rfl
  · rw [hset, Set.ncard_coe_finset]
    exact h.allocs

theorem accounts_brief : ∃ t, briefly 4 = some t ∧
    t.machine.a.allocs = int64 ({p | (t.heap p).isSome = true}.ncard + t.failed) :=
  (accounts (offered_left (show Offered (Sys.step page4k) (Allowed page4k) (Sys.boot fun _ => none)
    (brief.take 4 ++ brief.drop 4) from brief_offered))).imp fun _ h => ⟨h.1, h.2.2.2⟩

/-- **Nothing is lost.**  When the client has given back all of its blocks and no `munmap` failed,
exactly the memory is mapped that was mapped before the first call, and the allocator has no page,
no free slot and no bytes. -/
theorem all_given_back {mem : Mem} {acts : List Act} {t : Sys}
    (hoffered : Offered (Sys.step os) (Allowed os) (Sys.boot mem) acts)
    (hclean : ∀ a ∈ acts, a.Clean) (hrun : run (Sys.step os) (Sys.boot mem) acts = some t)
    (hheap : ∀ p, t.heap p = none) :
    t.machine.mem = mem ∧ t.machine.a.regs = ∅ ∧ t.machine.a.mmaps = 0 ∧
      t.machine.a.bytes = 0 ∧ ∀ log, t.machine.a.lists log = 0 ∧ t.machine.a.pages log = 0 := by
  obtain ⟨u, sh, hrun', h, hframe⟩ := run_rep hoffered
  cases hrun.symm.trans hrun'
  have hlive : sh.live = ∅ := by
    refine Finset.eq_empty_of_forall_notMem fun p hp => ?_
    have hsome := (h.live p).2 hp
    rw [hheap p] at hsome
    cases hsome
  have hpages := h.busy.pages_eq hlive
  refine ⟨hframe.mem_eq hclean h.busy hlive, ?_, ?_, ?_, fun log => ⟨?_, ?_⟩⟩
  · rw [h.good.regs, hpages]
  · rw [h.good.mmaps, hpages]
    rfl
  · rw [h.good.bytes, hpages]
    rfl
  · have hfree : sh.free log = [] := by
      refine List.eq_nil_iff_forall_not_mem.2 fun q hq => ?_
      have hpage := (h.good.placed.block_of_free hq).1
      rw [hpages] at hpage
      exact Finset.notMem_empty _ hpage
    have hhead := (h.good.lists log).head_eq
    rwa [hfree] at hhead
  · by_contra hne
    have hpage := (h.good.current log hne).1
    rw [hpages] at hpage
    exact Finset.notMem_empty _ hpage

theorem all_given_back_brief :
    ∃ t, run (Sys.step page4k) (Sys.boot fun _ => none) brief = some t ∧
      t.machine.mem = fun _ => none := by
  obtain ⟨t, hrun, hheap, -⟩ := brief_ends
  exact ⟨t, hrun, (all_given_back brief_offered brief_clean hrun hheap).1⟩

end Alloc
