import GoExperiments.Lib.GoBasic
import GoExperiments.Lib.BitArray
import GoExperiments.Lib.GoSlice
import GoExperiments.Lib.Runs

/-!
# The Bloom filter

`bloomfilter-explore/main.go` keeps an array of bits and three hash objects.  Adding an item sets
the bits at its three hash values modulo the size of the array, and an item is taken to be present
if its three bits are set.  The hash objects are shared by all calls and have to be reset.

* `Hash64` — a hash function with the states of its objects.
* `hashValues`, `add`, `testIsPresent` — the source; a panic is an error.
* `Represents bf S` — the filter has had the items of `S` added: the bits are those of `S`, and the
  hash objects are fresh.
* `represents_add`, `represents_testIsPresent` — one call; `represents_run` — any calls.
* `membership_exact` — what the filter answers after any calls.
-/

namespace Bloom

open GoSlice BitArray Runs Go

/-! ## Hash functions -/

/-- A type of `hash.Hash64`: the states of its objects, its methods, and the value that it computes
for an item.  An object that is new or was just reset computes this value. -/
structure Hash64 where
  State : Type
  new : State
  write : State → Bytes → State
  sum64 : State → UInt64
  reset : State → State
  hash : Bytes → UInt64
  sum64_new : ∀ item, sum64 (write new item) = hash item
  sum64_reset : ∀ s item, sum64 (write (reset s) item) = hash item

variable (H : Fin 3 → Hash64)

/-- A hash object: which function it computes, and its state. -/
abbrev HashObj := Σ j, (H j).State

/-! ## The source -/

structure BloomFilter where
  bitset : Slice Bool
  k : UInt64
  n : UInt64
  m : UInt64
  hashFuncs : List (HashObj H)

/-- `New`; the three functions are `murmur3.New64`, `fnv.New64` and `fnv.New64a`. -/
def new (size : UInt64) : BloomFilter H where
  bitset := .of (List.replicate size.toNat false)
  k := 3
  m := size
  n := 0
  hashFuncs := [⟨0, (H 0).new⟩, ⟨1, (H 1).new⟩, ⟨2, (H 2).new⟩]

variable {H}

/-- The loop of `hashValues`: the values, and the objects afterwards. -/
def hashLoop (item : Bytes) : List (HashObj H) → List UInt64 × List (HashObj H)
  | [] => ([], [])
  | ⟨j, s⟩ :: hashFuncs =>
      let s := (H j).write s item
      let sum := (H j).sum64 s
      let s := (H j).reset s
      let rest := hashLoop item hashFuncs
      (sum :: rest.1, ⟨j, s⟩ :: rest.2)

def hashValues (bf : BloomFilter H) (item : Bytes) : List UInt64 × BloomFilter H :=
  ((hashLoop item bf.hashFuncs).1, { bf with hashFuncs := (hashLoop item bf.hashFuncs).2 })

/-- `uint(hashes[i]) % bf.m` -/
def position (hashes : List UInt64) (m : UInt64) (i : ℕ) : Except Fault ℤ :=
  match hashes[i]? with
  | none => .error Slice.indexOutOfRange
  | some h =>
      if m = 0 then .error (.panic "runtime error: integer divide by zero")
      else .ok ((h % m).toNat : ℤ)

/-- The loop of `Add`, over the values of `i` that are left. -/
def addLoop (hashes : List UInt64) (m : UInt64) : List ℕ → Slice Bool → Except Fault (Slice Bool)
  | [], bitset => .ok bitset
  | i :: is, bitset => do
      let position ← position hashes m i
      let bitset ← bitset.store position true
      addLoop hashes m is bitset

def add (bf : BloomFilter H) (item : Bytes) : Except Fault (BloomFilter H) := do
  let (hashes, bf) := hashValues bf item
  let bitset ← addLoop hashes bf.m (List.range bf.k.toNat) bf.bitset
  return { bf with bitset := bitset, n := bf.n + 1 }

/-- The loop of `TestIsPresent`. -/
def testLoop (hashes : List UInt64) (m : UInt64) (bitset : Slice Bool) :
    List ℕ → Except Fault Bool
  | [] => .ok true
  | i :: is => do
      let position ← position hashes m i
      let bit ← bitset.load position
      if !bit then return false
      testLoop hashes m bitset is

def testIsPresent (bf : BloomFilter H) (item : Bytes) : Except Fault (Bool × BloomFilter H) := do
  let (hashes, bf) := hashValues bf item
  let present ← testLoop hashes bf.m bf.bitset (List.range bf.k.toNat)
  return (present, bf)

/-! ## Hashing -/

/-- A hash object that computes its function. -/
def Fresh (o : HashObj H) : Prop := ∀ item, (H o.1).sum64 ((H o.1).write o.2 item) = (H o.1).hash item

/-- Fresh objects compute their functions, and are fresh again afterwards. -/
theorem hashLoop_fresh (item : Bytes) {os : List (HashObj H)} (h : ∀ o ∈ os, Fresh o) :
    (hashLoop item os).1 = os.map (fun o => (H o.1).hash item) ∧
      (hashLoop item os).2.map Sigma.fst = os.map Sigma.fst ∧
      ∀ o ∈ (hashLoop item os).2, Fresh o := by
  induction os with
  | nil => exact ⟨rfl, rfl, fun o ho => absurd ho List.not_mem_nil⟩
  | cons o os ih =>
      obtain ⟨hvalues, hkinds, hfresh⟩ := ih fun o' ho' => h o' (List.mem_cons_of_mem _ ho')
      refine ⟨?_, ?_, ?_⟩
      · rw [List.map_cons, hashLoop, hvalues, h o List.mem_cons_self]
      · rw [List.map_cons, ← hkinds]
        rfl
      · intro o' ho'
        obtain rfl | ho' := List.mem_cons.1 ho'
        · exact (H o.1).sum64_reset _
        · exact hfresh o' ho'

/-! ## The loops -/

variable {m : UInt64}

/-- The positions that the loops look at for the indices `is`. -/
def looked (hashes : List UInt64) (m : UInt64) (is : List ℕ) : Set ℕ :=
  { p | ∃ i ∈ is, ∃ h, hashes[i]? = some h ∧ p = (h % m).toNat }

theorem looked_cons {hashes : List UInt64} {i : ℕ} {h : UInt64} (hi : hashes[i]? = some h)
    (m : UInt64) (is : List ℕ) :
    looked hashes m (i :: is) = insert (h % m).toNat (looked hashes m is) := by
  ext p
  constructor
  · rintro ⟨i', hi', h', hget, rfl⟩
    obtain rfl | hi' := List.mem_cons.1 hi'
    · rw [hi, Option.some.injEq] at hget
      exact .inl (by rw [hget])
    · exact .inr ⟨i', hi', h', hget, rfl⟩
  · rintro (rfl | ⟨i', hi', h', hget, rfl⟩)
    · exact ⟨i, List.mem_cons_self, h, hi, rfl⟩
    · exact ⟨i', List.mem_cons_of_mem _ hi', h', hget, rfl⟩

theorem position_eq {hashes : List UInt64} (hm : m ≠ 0) {i : ℕ} {h : UInt64}
    (hi : hashes[i]? = some h) : position hashes m i = .ok ((h % m).toNat : ℤ) := by
  simp only [position, hi, if_neg hm]

theorem mod_lt_size (hm : m ≠ 0) (h : UInt64) : (h % m).toNat < m.toNat := by
  rw [UInt64.toNat_mod]
  refine Nat.mod_lt _ (Nat.pos_of_ne_zero fun hzero => hm ?_)
  exact UInt64.toNat_inj.1 hzero

/-- The loop of `Add` sets the bits at the positions it looks at. -/
theorem addLoop_eq (hm : m ≠ 0) {hashes : List UInt64} {is : List ℕ}
    (his : ∀ i ∈ is, i < hashes.length) {bitset : Slice Bool} (hlen : bitset.len = m.toNat) :
    ∃ bitset', addLoop hashes m is bitset = .ok bitset' ∧ bitset'.len = m.toNat ∧
      ones bitset'.toList = ones bitset.toList ∪ looked hashes m is := by
  induction is generalizing bitset with
  | nil => exact ⟨bitset, rfl, hlen, by simp [looked]⟩
  | cons i is ih =>
      obtain ⟨h, hi⟩ : ∃ h, hashes[i]? = some h :=
        ⟨_, List.getElem?_eq_getElem (his i List.mem_cons_self)⟩
      have hlt : (h % m).toNat < bitset.len := by
        rw [hlen]
        exact mod_lt_size hm h
      obtain ⟨stored, hstore, hlen', hbits⟩ := Slice.toList_store hlt true
      obtain ⟨bitset', hloop, hlen'', hones⟩ :=
        ih (fun i' hi' => his i' (List.mem_cons_of_mem _ hi')) (hlen'.trans hlen)
      refine ⟨bitset', ?_, hlen'', ?_⟩
      · rw [addLoop, position_eq hm hi]
        simp only [bind, Except.bind]
        rw [hstore]
        exact hloop
      · rw [hones, hbits, ones_set (by rw [Slice.length_toList]; exact hlt), looked_cons hi,
          Set.insert_union, Set.union_insert]

/-- The loop of `TestIsPresent` says whether all the bits it is to look at are set. -/
theorem testLoop_eq (hm : m ≠ 0) {hashes : List UInt64} {is : List ℕ}
    (his : ∀ i ∈ is, i < hashes.length) {bitset : Slice Bool} (hlen : bitset.len = m.toNat) :
    ∃ present, testLoop hashes m bitset is = .ok present ∧
      (present = true ↔ looked hashes m is ⊆ ones bitset.toList) := by
  induction is with
  | nil => exact ⟨true, rfl, by simp [looked]⟩
  | cons i is ih =>
      obtain ⟨h, hi⟩ : ∃ h, hashes[i]? = some h :=
        ⟨_, List.getElem?_eq_getElem (his i List.mem_cons_self)⟩
      have hlt : (h % m).toNat < bitset.toList.length := by
        rw [Slice.length_toList, hlen]
        exact mod_lt_size hm h
      obtain ⟨present, hloop, hpresent⟩ := ih fun i' hi' => his i' (List.mem_cons_of_mem _ hi')
      have hone : (h % m).toNat ∈ ones bitset.toList ↔
          bitset.toList.get ⟨(h % m).toNat, hlt⟩ = true := by
        rw [mem_ones, List.getElem?_eq_getElem hlt, Option.some.injEq]
        rfl
      rw [looked_cons hi, Set.insert_subset_iff, hone, testLoop, position_eq hm hi]
      simp only [bind, Except.bind]
      rw [Slice.load_eq hlt]
      cases bitset.toList.get ⟨(h % m).toNat, hlt⟩ with
      | false => exact ⟨false, rfl, by simp⟩
      | true => exact ⟨present, hloop, by simpa using hpresent⟩

/-! ## What a filter stands for -/

variable {size : UInt64} {S : Set Bytes} {bf : BloomFilter H}

/-- The positions of an item. -/
def positions (H : Fin 3 → Hash64) (size : UInt64) (item : Bytes) : Set ℕ :=
  { p | ∃ j, p = ((H j).hash item % size).toNat }

/-- The items of `S` were added to the filter, and no others. -/
structure Represents (bf : BloomFilter H) (size : UInt64) (S : Set Bytes) : Prop where
  k : bf.k = 3
  m : bf.m = size
  len : bf.bitset.len = size.toNat
  bits : ones bf.bitset.toList = cover (positions H size) S
  kinds : bf.hashFuncs.map Sigma.fst = [0, 1, 2]
  fresh : ∀ o ∈ bf.hashFuncs, Fresh o

theorem represents_new (H : Fin 3 → Hash64) (size : UInt64) : Represents (new H size) size ∅ where
  k := rfl
  m := rfl
  len := List.length_replicate
  bits := by rw [new, Slice.toList_of, ones_replicate, cover_empty]
  kinds := rfl
  fresh := by
    intro o ho
    simp only [new, List.mem_cons, List.not_mem_nil, or_false] at ho
    obtain rfl | rfl | rfl := ho
    · exact (H 0).sum64_new
    · exact (H 1).sum64_new
    · exact (H 2).sum64_new

/-- The values of an item. -/
def valuesOf (H : Fin 3 → Hash64) (item : Bytes) : List UInt64 :=
  [(H 0).hash item, (H 1).hash item, (H 2).hash item]

/-- There is a value for every index of the loops. -/
theorem lt_length_valuesOf (H : Fin 3 → Hash64) (item : Bytes) :
    ∀ i ∈ List.range 3, i < (valuesOf H item).length :=
  fun _ hi => List.mem_range.1 hi

theorem looked_valuesOf (item : Bytes) :
    looked (valuesOf H item) size (List.range 3) = positions H size item := by
  ext p
  constructor
  · rintro ⟨i, hi, h, hget, rfl⟩
    rw [List.mem_range] at hi
    refine ⟨⟨i, hi⟩, ?_⟩
    match i, hi, hget with
    | 0, _, hget => rw [← Option.some.inj hget]; rfl
    | 1, _, hget => rw [← Option.some.inj hget]; rfl
    | 2, _, hget => rw [← Option.some.inj hget]; rfl
  · rintro ⟨j, rfl⟩
    refine ⟨j, List.mem_range.2 j.isLt, (H j).hash item, ?_, rfl⟩
    match j with
    | 0 => rfl
    | 1 => rfl
    | 2 => rfl

theorem Represents.toNat_k (h : Represents bf size S) : bf.k.toNat = 3 := by
  rw [h.k]
  rfl

/-- Hashing an item changes nothing that the filter stands for. -/
theorem hashValues_eq (h : Represents bf size S) (item : Bytes) :
    (hashValues bf item).1 = valuesOf H item ∧ Represents (hashValues bf item).2 size S := by
  obtain ⟨hvalues, hkinds, hfresh⟩ := hashLoop_fresh item h.fresh
  constructor
  · have hmap : bf.hashFuncs.map (fun o => (H o.1).hash item) =
        (bf.hashFuncs.map Sigma.fst).map fun j => (H j).hash item := by
      rw [List.map_map]
      rfl
    rw [hashValues, hvalues, hmap, h.kinds]
    rfl
  · exact ⟨h.k, h.m, h.len, h.bits, hkinds.trans h.kinds, hfresh⟩

/-! ## One call -/

theorem represents_add (hsize : size ≠ 0) (h : Represents bf size S) (item : Bytes) :
    ∃ bf', add bf item = .ok bf' ∧ Represents bf' size (insert item S) := by
  obtain ⟨hvalues, hrep⟩ := hashValues_eq h item
  obtain ⟨bitset', hloop, hlen, hones⟩ := addLoop_eq hsize
    (lt_length_valuesOf H item) hrep.len
  refine ⟨{ (hashValues bf item).2 with bitset := bitset', n := (hashValues bf item).2.n + 1 },
    ?_, ⟨hrep.k, hrep.m, hlen, ?_, hrep.kinds, hrep.fresh⟩⟩
  · simp only [add]
    rw [hvalues, hrep.m, hrep.toNat_k, hloop]
    rfl
  · rw [hones, hrep.bits, looked_valuesOf, cover_insert]

theorem represents_testIsPresent (hsize : size ≠ 0) (h : Represents bf size S) (item : Bytes) :
    ∃ present bf', testIsPresent bf item = .ok (present, bf') ∧ Represents bf' size S ∧
      (present = true ↔ Maybe (positions H size) S item) := by
  obtain ⟨hvalues, hrep⟩ := hashValues_eq h item
  obtain ⟨present, hloop, hpresent⟩ := testLoop_eq hsize
    (lt_length_valuesOf H item) hrep.len
  refine ⟨present, (hashValues bf item).2, ?_, hrep, ?_⟩
  · simp only [testIsPresent]
    rw [hvalues, hrep.m, hrep.toNat_k, hloop]
    rfl
  · rw [hpresent, looked_valuesOf, hrep.bits]
    rfl

/-! ## Any calls -/

inductive Call where
  | add (item : Bytes)
  | testIsPresent (item : Bytes)
  deriving DecidableEq

/-- The filter after a call, if it does not panic. -/
def step (bf : BloomFilter H) : Call → Option (BloomFilter H)
  | .add item => (add bf item).toOption
  | .testIsPresent item => ((testIsPresent bf item).map Prod.snd).toOption

/-- The items that were added. -/
def added (calls : List Call) : Set Bytes := { x | .add x ∈ calls }

/-- One call does not panic, and adds its item. -/
theorem represents_step (hsize : size ≠ 0) (h : Represents bf size S) (call : Call) :
    ∃ bf', step bf call = some bf' ∧ Represents bf' size (S ∪ added [call]) := by
  cases call with
  | add item =>
      obtain ⟨bf', hadd, hrep⟩ := represents_add hsize h item
      have hitem : S ∪ added [.add item] = insert item S := by
        ext x
        simp [added, or_comm]
      rw [hitem]
      exact ⟨bf', by rw [step, hadd]; rfl, hrep⟩
  | testIsPresent item =>
      obtain ⟨present, bf', htest, hrep, -⟩ := represents_testIsPresent hsize h item
      have hitem : S ∪ added [.testIsPresent item] = S := by
        ext x
        simp [added]
      rw [hitem]
      exact ⟨bf', by rw [step, htest]; rfl, hrep⟩

theorem represents_run (hsize : size ≠ 0) (calls : List Call) :
    ∃ bf : BloomFilter H, run step (new H size) calls = some bf ∧
      Represents bf size (added calls) := by
  induction calls using List.reverseRecOn with
  | nil =>
      have hnone : added [] = ∅ := by
        ext x
        simp [added]
      rw [hnone]
      exact ⟨new H size, rfl, represents_new H size⟩
  | append_singleton calls call ih =>
      obtain ⟨bf, hrun, hrep⟩ := ih
      obtain ⟨bf', hstep, hrep'⟩ := represents_step hsize hrep call
      have hadded : added (calls ++ [call]) = added calls ∪ added [call] := by
        ext x
        simp [added]
      rw [hadded]
      exact ⟨bf', run_concat_eq_some.2 ⟨bf, hrun, hstep⟩, hrep'⟩

/-! ## What the filter answers -/

def answer (bf : BloomFilter H) (item : Bytes) : Except Fault Bool :=
  (testIsPresent bf item).map Prod.fst

theorem answer_eq (hsize : size ≠ 0) (h : Represents bf size S) (y : Bytes) :
    ∃ present, answer bf y = .ok present ∧ (present = true ↔ Maybe (positions H size) S y) := by
  obtain ⟨present, bf', htest, -, hpresent⟩ := represents_testIsPresent hsize h y
  exact ⟨present, by rw [answer, htest]; rfl, hpresent⟩

/-- Filters with the same items answer alike. -/
theorem answer_congr (hsize : size ≠ 0) {bf' : BloomFilter H} (h : Represents bf size S)
    (h' : Represents bf' size S) (y : Bytes) : answer bf y = answer bf' y := by
  obtain ⟨present, hanswer, hpresent⟩ := answer_eq hsize h y
  obtain ⟨present', hanswer', hpresent'⟩ := answer_eq hsize h' y
  rw [hanswer, hanswer', Bool.eq_iff_iff.2 (hpresent.trans hpresent'.symm)]

/-- Coverage, said of the hash values. -/
theorem maybe_positions_iff (y : Bytes) :
    Maybe (positions H size) S y ↔
      ∀ j, ∃ x ∈ S, ∃ j', (H j).hash y % size = (H j').hash x % size := by
  constructor
  · intro h j
    obtain ⟨x, hx, j', hpos⟩ := h ⟨j, rfl⟩
    exact ⟨x, hx, j', UInt64.toNat_inj.1 hpos⟩
  · rintro h p ⟨j, rfl⟩
    obtain ⟨x, hx, j', hpos⟩ := h j
    exact ⟨x, hx, j', by rw [hpos]⟩

/-- **Membership is exact up to hashing.**  For every size and all hash functions, any calls of
`Add` and `TestIsPresent` end without a panic.  Afterwards `TestIsPresent` says yes exactly to the
items each of whose three positions is one of an item that was added; so it says yes to every item
that was added, and its answers depend on nothing but the set of these items. -/
theorem membership_exact (H : Fin 3 → Hash64) (size : UInt64) (hsize : size ≠ 0)
    (calls : List Call) :
    ∃ bf, run step (new H size) calls = some bf ∧
      (∀ y, ∃ present, answer bf y = .ok present ∧
        (present = true ↔ ∀ j, ∃ x, .add x ∈ calls ∧ ∃ j',
          (H j).hash y % size = (H j').hash x % size) ∧
        (.add y ∈ calls → present = true)) ∧
      ∀ calls', (∀ x, Call.add x ∈ calls ↔ Call.add x ∈ calls') →
        ∃ bf', run step (new H size) calls' = some bf' ∧ ∀ y, answer bf y = answer bf' y := by
  obtain ⟨bf, hrun, hrep⟩ := represents_run hsize calls
  refine ⟨bf, hrun, fun y => ?_, fun calls' hsame => ?_⟩
  · obtain ⟨present, hanswer, hpresent⟩ := answer_eq hsize hrep y
    refine ⟨present, hanswer, hpresent.trans (maybe_positions_iff y), fun hy => ?_⟩
    exact hpresent.2 (maybe_of_mem hy)
  · obtain ⟨bf', hrun', hrep'⟩ := represents_run hsize calls'
    have hadded : added calls = added calls' := Set.ext hsame
    rw [← hadded] at hrep'
    exact ⟨bf', hrun', answer_congr hsize hrep hrep'⟩

/-- A hash function that counts bytes. -/
def countBytes : Hash64 where
  State := ℕ
  new := 0
  write s item := s + item.length
  sum64 s := UInt64.ofNat s
  reset _ := 0
  hash item := UInt64.ofNat (0 + item.length)
  sum64_new _ := rfl
  sum64_reset _ _ := rfl

/-- After five bytes were added twenty times, they are found, and so are any other five. -/
theorem membership_exact_five :
    ∃ bf, run step (new (fun _ => countBytes) 20)
        (List.replicate 20 (.add [0x68, 0x65, 0x6c, 0x6c, 0x6f])) = some bf ∧
      answer bf [0x68, 0x65, 0x6c, 0x6c, 0x6f] = .ok true ∧
      answer bf [0x77, 0x6f, 0x72, 0x6c, 0x64] = .ok true := by
  obtain ⟨bf, hrun, hanswer, -⟩ := membership_exact (fun _ => countBytes) 20 (by decide)
    (List.replicate 20 (.add [0x68, 0x65, 0x6c, 0x6c, 0x6f]))
  have hmem : Call.add [0x68, 0x65, 0x6c, 0x6c, 0x6f] ∈
      List.replicate 20 (Call.add [0x68, 0x65, 0x6c, 0x6c, 0x6f]) := by decide
  refine ⟨bf, hrun, ?_, ?_⟩
  · obtain ⟨present, heq, -, hyes⟩ := hanswer [0x68, 0x65, 0x6c, 0x6c, 0x6f]
    rw [heq, hyes hmem]
  · obtain ⟨present, heq, hiff, -⟩ := hanswer [0x77, 0x6f, 0x72, 0x6c, 0x64]
    rw [heq, hiff.2 fun _ => ⟨_, hmem, 0, rfl⟩]

end Bloom
