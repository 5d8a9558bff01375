import Mathlib.Data.Finset.Basic
import GoExperiments.Lib.ByteMemory
import GoExperiments.Alloc.Sizes

/-!
# The allocator

`memory.go` and `mmap_unix.go`, on a machine with 64-bit words.  The allocator keeps its page
headers and its free lists in the memory it hands out, so the model has that memory: every field
of a `page` or a `node` is loaded and stored at its address, and access where nothing is mapped
ends the process.

What the operating system answers is an argument: where `mmap` puts a mapping, or that it fails,
and whether each `munmap` succeeds.  An `err` that is not `nil` is a value that is returned, along
with the state as it then is.
-/

namespace Alloc

open ByteMemory Go

/-- How the process ends: at an access to memory that is not mapped, or in a panic. -/
inductive Crash where
  | segv
  | panic
  deriving DecidableEq

/-- The system call that an error is from. -/
inductive Errno where
  | mmap
  | munmap
  deriving DecidableEq

/-- An `error`; `none` is `nil`. -/
abbrev Err := Option Errno

/-- The operating system: its pages have a power of 2 of bytes, at least 4096 and at most
`pageSize`. -/
structure Os where
  pageBits : ℕ
  le_pageBits : 12 ≤ pageBits
  pageBits_le : pageBits ≤ 20

def Os.pageSize (os : Os) : ℤ := 2 ^ os.pageBits

def Os.pageMask (os : Os) : ℤ := os.pageSize - 1

/-- What is loaded through a pointer, or stored. -/
def deref {α : Type} : Option α → Except Crash α
  | some x => .ok x
  | none => .error .segv

/-! ## Mapping memory (`mmap_unix.go`) -/

/-- `unmap`. -/
def unmap (m : Mem) (addr : ℕ) (size : ℤ) (ok : Bool) : Err × Mem :=
  if ok then (none, fill m addr size.toNat none) else (some .munmap, m)

/-- The answers to one call of `mmap`: the address of the mapping, unless it fails, and whether
the `munmap` of what is in front of the aligned range and of what is behind it succeed. -/
structure MmapAnswer where
  base : Option ℕ
  head : Bool
  tail : Bool

/-- `mmap`, from where `p` is the beginning of the range: what is behind the range is unmapped. -/
def mmapTail (m : Mem) (p : ℕ) (n size : ℤ) (ok : Bool) : Except Crash (ℕ × ℤ × Err × Mem) :=
  if p &&& uint64 pageMask ≠ 0 then .error .panic
  else if n - size ≠ 0 then
    match unmap m (uint64 (p + size)) (n - size) ok with
    | (some e, m) => .ok (0, 0, some e, m)
    | (none, m) => .ok (p, size, none, m)
  else .ok (p, size, none, m)

/-- `mmap`: the address, the size, the error. -/
def mmap (os : Os) (m : Mem) (size : ℤ) (ans : MmapAnswer) :
    Except Crash (ℕ × ℤ × Err × Mem) :=
  let size := roundup size os.pageSize
  match ans.base with
  | none => .ok (0, 0, some .mmap, m)
  | some p =>
      let n := int64 (size + pageSize)
      let m := fill m p n.toNat (some 0)
      if p &&& uint64 os.pageMask ≠ 0 then .error .panic
      else
        let mod : ℤ := (p &&& uint64 pageMask : ℕ)
        if mod ≠ 0 then
          match unmap m p (pageSize - mod) ans.head with
          | (some e, m) => .ok (0, 0, some e, m)
          | (none, m) => mmapTail m (uint64 (p + (pageSize - mod))) (n - (pageSize - mod)) size ans.tail
        else mmapTail m p n size ans.tail

/-! ## The allocator (`memory.go`) -/

/-- `Allocator`.  An array of 64 elements is a function; an index is checked where it is used. -/
structure Allocator where
  allocs : ℤ
  bytes : ℤ
  cap : ℕ → ℤ
  lists : ℕ → ℕ
  mmaps : ℤ
  pages : ℕ → ℕ
  regs : Finset ℕ

/-- `Allocator{}`. -/
def Allocator.zero : Allocator := ⟨0, 0, fun _ => 0, fun _ => 0, 0, fun _ => 0, ∅⟩

structure Machine where
  mem : Mem
  a : Allocator

def setAt {β : Type} (f : ℕ → β) (i : ℕ) (v : β) : ℕ → β := fun j => if j = i then v else f j

/-- The check of an index into one of the arrays. -/
def checkIndex (log : ℕ) : Except Crash Unit := if log < 64 then .ok () else .error .panic

/-- `p.field += d`. -/
def addField (m : Mem) (addr : ℕ) (d : ℤ) : Except Crash Mem := do
  let v ← deref (loadInt m addr)
  deref (storeInt m addr (v + d))

/-- `if n != nil { n.prev = v }`. -/
def setPrev (m : Mem) (n v : ℕ) : Except Crash Mem :=
  if n ≠ 0 then deref (store64 m n v) else .ok m

/-- `uintptr(unsafe.Pointer(p)) &^ uintptr(pageMask)`. -/
def pageOf (p : ℕ) : ℕ := andNot p (uint64 pageMask)

namespace Machine

variable (os : Os) (s : Machine)

/-- The method `mmap`. -/
def mmap (size : ℤ) (ans : MmapAnswer) : Except Crash (ℕ × Err × Machine) := do
  let (p, size, err, mem) ← Alloc.mmap os s.mem size ans
  match err with
  | some e => return (0, some e, { s with mem := mem })
  | none =>
      let mem ← deref (storeInt mem (p + 16) size)
      return (p, none, {
        mem := mem
        a := { s.a with
          mmaps := int64 (s.a.mmaps + 1)
          bytes := int64 (s.a.bytes + size)
          regs := insert p s.a.regs } })

/-- `newPage`. -/
def newPage (size : ℤ) (ans : MmapAnswer) : Except Crash (ℕ × Err × Machine) := do
  let (p, err, s) ← s.mmap os (int64 (size + headerSize)) ans
  match err with
  | some e => return (0, some e, s)
  | none =>
      let mem ← deref (store64 s.mem (p + 8) 0)
      return (p, none, { s with mem := mem })

/-- `newSharedPage`. -/
def newSharedPage (log : ℕ) (ans : MmapAnswer) : Except Crash (ℕ × Err × Machine) := do
  checkIndex log
  let cap := if s.a.cap log = 0 then pageAvail.tdiv (shl 1 log) else s.a.cap log
  let s := { s with a := { s.a with cap := setAt s.a.cap log cap } }
  let (p, err, s) ← s.mmap os (int64 (headerSize + shl cap log)) ans
  match err with
  | some e => return (0, some e, s)
  | none =>
      let mem ← deref (store64 s.mem (p + 8) log)
      return (p, none, { mem := mem, a := { s.a with pages := setAt s.a.pages log p } })

/-- The method `unmap`. -/
def unmap (p : ℕ) (ok : Bool) : Except Crash (Err × Machine) := do
  let size ← deref (loadInt s.mem (p + 16))
  let (err, mem) := Alloc.unmap s.mem p size ok
  return (err, {
    mem := mem
    a := { s.a with regs := s.a.regs.erase p, mmaps := int64 (s.a.mmaps - 1) } })

/-- `UintptrMalloc`, where the page `p` has slots that were never used. -/
def bump (log p : ℕ) : Except Crash (ℕ × Machine) := do
  let mem ← addField s.mem (p + 24) 1
  let mem ← addField mem p 1
  let brk ← deref (loadInt mem p)
  let pages := if brk = s.a.cap log then setAt s.a.pages log 0 else s.a.pages
  return (uint64 (p + (headerSize + shl (brk - 1) log)), {
    mem := mem
    a := { s.a with pages := pages } })

/-- `UintptrMalloc`, where a slot is taken from the free list. -/
def pop (log : ℕ) : Except Crash (ℕ × Machine) := do
  let n := s.a.lists log
  let next ← deref (load64 s.mem (n + 8))
  let mem ← setPrev s.mem next 0
  let mem ← addField mem (pageOf n + 24) 1
  return (n, { mem := mem, a := { s.a with lists := setAt s.a.lists log next } })

/-- `UintptrMalloc`, where a page is mapped if the class has no slot to give. -/
def refill (log : ℕ) (ans : MmapAnswer) : Except Crash (ℕ × Err × Machine) :=
  if s.a.lists log = 0 ∧ s.a.pages log = 0 then s.newSharedPage os log ans else .ok (0, none, s)

/-- `UintptrMalloc`, from where a slot of the class is there. -/
def takeSlot (log : ℕ) : Except Crash (ℕ × Machine) :=
  if s.a.pages log ≠ 0 then s.bump log (s.a.pages log) else s.pop log

/-- `UintptrMalloc`. -/
def uintptrMalloc (size : ℤ) (ans : MmapAnswer) : Except Crash (ℕ × Err × Machine) :=
  if size < 0 then .error .panic
  else if size = 0 then .ok (0, none, s)
  else
    let s := { s with a := { s.a with allocs := int64 (s.a.allocs + 1) } }
    let log := sizeLog size
    if shl 1 log > maxSlotSize then do
      let (p, err, s) ← s.newPage os size ans
      match err with
      | some e => return (0, some e, s)
      | none => return (uint64 (p + headerSize), none, s)
    else do
      checkIndex log
      let (_, err, s) ← s.refill os log ans
      match err with
      | some e => return (0, some e, s)
      | none =>
          let (r, s) ← s.takeSlot log
          return (r, none, s)

/-- `UintptrCalloc`.  The slice expression panics above `1 << 49` bytes. -/
def uintptrCalloc (size : ℤ) (ans : MmapAnswer) : Except Crash (ℕ × Err × Machine) := do
  let (r, err, s) ← s.uintptrMalloc os size ans
  if r = 0 ∨ err ≠ none then return (0, err, s)
  else if 2 ^ 49 < size then .error .panic
  else
    let mem ← deref (writeBytes s.mem r (List.replicate size.toNat 0))
    return (r, none, { s with mem := mem })

/-- One turn of the loop of `UintptrFree`: the node `n` leaves its list. -/
def unlinkNode (log n : ℕ) : Except Crash Machine := do
  let prev ← deref (load64 s.mem n)
  let next ← deref (load64 s.mem (n + 8))
  if prev = 0 then
    let mem ← setPrev s.mem next 0
    return { mem := mem, a := { s.a with lists := setAt s.a.lists log next } }
  else if next = 0 then
    let mem ← deref (store64 s.mem (prev + 8) 0)
    return { s with mem := mem }
  else
    let mem ← deref (store64 s.mem (prev + 8) next)
    -- `n.next.prev = n.prev` loads both again
    let next ← deref (load64 mem (n + 8))
    let prev ← deref (load64 mem n)
    let mem ← deref (store64 mem next prev)
    return { s with mem := mem }

/-- The loop of `UintptrFree`.  `pg.brk` is an `int`, so that `2 ^ 63` turns are enough. -/
def unlinkSlots (log pg : ℕ) : ℕ → ℤ → Machine → Except Crash Machine
  | 0, _, s => .ok s
  | fuel + 1, i, s => do
      let brk ← deref (loadInt s.mem pg)
      if i < brk then
        let s ← s.unlinkNode log (uint64 (pg + (headerSize + shl i log)))
        unlinkSlots log pg fuel (i + 1) s
      else return s

/-- `UintptrFree`, where the node `n` is put in front of its free list. -/
def push (log n : ℕ) : Except Crash Machine := do
  let mem ← deref (store64 s.mem n 0)
  checkIndex log
  let head := s.a.lists log
  let mem ← deref (store64 mem (n + 8) head)
  let mem ← setPrev mem head n
  return { mem := mem, a := { s.a with lists := setAt s.a.lists log n } }

/-- `a.bytes -= pg.size; return a.unmap(pg)`. -/
def releasePage (pg : ℕ) (ok : Bool) : Except Crash (Err × Machine) := do
  let size ← deref (loadInt s.mem (pg + 16))
  let s := { s with a := { s.a with bytes := int64 (s.a.bytes - size) } }
  s.unmap pg ok

/-- `UintptrFree`, from where no slot of the page is in use. -/
def releaseSlots (log pg : ℕ) (ok : Bool) : Except Crash (Err × Machine) := do
  let s ← unlinkSlots log pg (2 ^ 63) 0 s
  let pages := if s.a.pages log = pg then setAt s.a.pages log 0 else s.a.pages
  let s := { s with a := { s.a with pages := pages } }
  s.releasePage pg ok

/-- `UintptrFree`. -/
def uintptrFree (p : ℕ) (ok : Bool) : Except Crash (Err × Machine) :=
  if p = 0 then .ok (none, s)
  else do
    let s := { s with a := { s.a with allocs := int64 (s.a.allocs - 1) } }
    let pg := pageOf p
    let log ← deref (load64 s.mem (pg + 8))
    if log = 0 then s.releasePage pg ok
    else
      let s ← s.push log p
      let mem ← addField s.mem (pg + 24) (-1)
      let s := { s with mem := mem }
      let used ← deref (loadInt s.mem (pg + 24))
      if used ≠ 0 then return (none, s) else s.releaseSlots log pg ok

/-- `usableSize`. -/
def usableSize (p : ℕ) : Except Crash ℤ := do
  let log ← deref (load64 s.mem (pageOf p + 8))
  if log ≠ 0 then return shl 1 log
  else
    let size ← deref (loadInt s.mem (pageOf p + 16))
    return int64 (size - headerSize)

/-- `UintptrUsableSize`. -/
def uintptrUsableSize (p : ℕ) : Except Crash ℤ := if p = 0 then .ok 0 else s.usableSize p

/-- `copy`, of `size` bytes from `p` to `r`; the slice expressions panic where `size` is negative
or above `1 << 49`. -/
def copyBytes (r p : ℕ) (size : ℤ) : Except Crash Machine :=
  if size < 0 ∨ 2 ^ 49 < size then .error .panic
  else do
    let bs ← deref (readBytes s.mem p size.toNat)
    let mem ← deref (writeBytes s.mem r bs)
    return { s with mem := mem }

/-- `UintptrRealloc`. -/
def uintptrRealloc (p : ℕ) (size : ℤ) (ans : MmapAnswer) (ok : Bool) :
    Except Crash (ℕ × Err × Machine) :=
  if p = 0 then s.uintptrMalloc os size ans
  else if size = 0 then do
    let (err, s) ← s.uintptrFree p ok
    return (0, err, s)
  else do
    let us ← s.uintptrUsableSize p
    if us > size then return (p, none, s)
    else
      let (r, err, s) ← s.uintptrMalloc os size ans
      match err with
      | some e => return (0, some e, s)
      | none =>
          let s ← s.copyBytes r p (if us < size then us else size)
          let (err, s) ← s.uintptrFree p ok
          return (r, err, s)

/-- The loop of `Close`, over the pages of `regs` in the order in which the map gives them. -/
def closePages : List (ℕ × Bool) → Err → Machine → Except Crash (Err × Machine)
  | [], err, s => .ok (err, s)
  | (p, ok) :: rest, err, s => do
      let (e, s) ← s.unmap p ok
      closePages rest (if e ≠ none ∧ err = none then e else err) s

/-- `Close`. -/
def close (order : List (ℕ × Bool)) : Except Crash (Err × Machine) := do
  let (err, s) ← closePages order none s
  return (err, { s with a := Allocator.zero })

end Machine

/-! ## Byte slices -/

/-- A `[]byte` over memory of the allocator. -/
structure ByteSlice where
  data : ℕ
  len : ℤ
  cap : ℤ
  deriving DecidableEq

/-- `nil`. -/
def ByteSlice.nil : ByteSlice := ⟨0, 0, 0⟩

namespace Machine

variable (os : Os) (s : Machine)

/-- `Malloc`. -/
def malloc (size : ℤ) (ans : MmapAnswer) : Except Crash (ByteSlice × Err × Machine) := do
  let (p, err, s) ← s.uintptrMalloc os size ans
  if p = 0 ∨ err ≠ none then return (.nil, err, s)
  else
    let cap ← s.usableSize p
    return (⟨p, size, cap⟩, none, s)

/-- `Calloc`, which does not ask whether `p` is 0. -/
def calloc (size : ℤ) (ans : MmapAnswer) : Except Crash (ByteSlice × Err × Machine) := do
  let (p, err, s) ← s.uintptrCalloc os size ans
  if err ≠ none then return (.nil, err, s)
  else
    let cap ← s.usableSize p
    return (⟨p, size, cap⟩, none, s)

/-- `Free`: the slice is resliced to its capacity, and its first byte is what is freed. -/
def free (b : ByteSlice) (ok : Bool) : Except Crash (Err × Machine) :=
  if b.cap = 0 then .ok (none, s) else s.uintptrFree b.data ok

/-- `Realloc`. -/
def realloc (b : ByteSlice) (size : ℤ) (ans : MmapAnswer) (ok : Bool) :
    Except Crash (ByteSlice × Err × Machine) := do
  let (p, err, s) ← s.uintptrRealloc os (if b.cap = 0 then 0 else b.data) size ans ok
  if p = 0 ∨ err ≠ none then return (.nil, err, s)
  else
    let cap ← s.usableSize p
    return (⟨p, size, cap⟩, none, s)

end Machine

end Alloc
