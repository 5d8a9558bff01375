import Mathlib.Algebra.BigOperators.Group.Finset.Basic
import Mathlib.Algebra.Group.Int.Defs
import Mathlib.Algebra.Group.Nat.Defs
import Mathlib.Algebra.GroupWithZero.Nat
import Mathlib.Data.Int.Notation
import Mathlib.Data.List.Basic
import Mathlib.Order.Interval.Finset.Nat
import Mathlib.Tactic.ByContra

/-!
# A memory of bytes

A memory gives the byte at every mapped address.  Words of 64 bits are stored with the lowest
byte first.  Reading or writing where nothing is mapped is a fault, `none`.

* `Apart` — two ranges of addresses have no address in common; `sum_le_of_apart` bounds what such
  ranges have together.
* `Mapped`, `fill` — what is mapped, and mapping or unmapping a range.
* `readBytes`, `writeBytes` — access to a range; `readBytes_eq_some_iff` says what is read byte by
  byte, and `put` is the memory after a write.
* `load64`, `store64`, `loadInt`, `storeInt` — words, as natural numbers and as signed ones.
* `load64_put64_self`, `loadInt_putInt_self` — what was stored is read back; `readBytes_congr` — what is
  read depends on the range alone.
-/

namespace ByteMemory

/-- The byte at each address, and `none` where nothing is mapped. -/
abbrev Mem := ℕ → Option UInt8

/-! ## Ranges -/

/-- The `n` addresses from `a` and the `k` addresses from `b` have none in common. -/
def Apart (a n b k : ℕ) : Prop := a + n ≤ b ∨ b + k ≤ a

instance (a n b k : ℕ) : Decidable (Apart a n b k) := inferInstanceAs (Decidable (_ ∨ _))

theorem Apart.symm {a n b k : ℕ} (h : Apart a n b k) : Apart b k a n := Or.symm h

/-- Parts of ranges that are apart are apart. -/
theorem Apart.mono {a n b k a' n' b' k' : ℕ} (h : Apart a n b k) (ha : a ≤ a')
    (han : a' + n' ≤ a + n) (hb : b ≤ b') (hbk : b' + k' ≤ b + k) : Apart a' n' b' k' := by
  unfold Apart at h ⊢
  omega

/-- Ranges below a limit that are apart have together no more addresses than there are. -/
theorem sum_le_of_apart {starts : Finset ℕ} {size : ℕ → ℕ} {limit : ℕ}
    (hin : ∀ b ∈ starts, b + size b ≤ limit)
    (hapart : ∀ b ∈ starts, ∀ c ∈ starts, b ≠ c → Apart b (size b) c (size c)) :
    ∑ b ∈ starts, size b ≤ limit := by
  have hdisjoint : ∀ b ∈ starts, ∀ c ∈ starts, b ≠ c →
      Disjoint (Finset.Ico b (b + size b)) (Finset.Ico c (c + size c)) := by
    intro b hb c hc hne
    refine Finset.disjoint_left.2 fun x hx hx' => ?_
    rw [Finset.mem_Ico] at hx hx'
    have h := hapart b hb c hc hne
    unfold Apart at h
    omega
  have hsub : starts.biUnion (fun b => Finset.Ico b (b + size b)) ⊆ Finset.range limit := by
    intro x hx
    obtain ⟨b, hb, hx⟩ := Finset.mem_biUnion.1 hx
    have hle := hin b hb
    rw [Finset.mem_Ico] at hx
    exact Finset.mem_range.2 (by omega)
  calc ∑ b ∈ starts, size b
      = ∑ b ∈ starts, (Finset.Ico b (b + size b)).card :=
        Finset.sum_congr rfl fun b _ => by rw [Nat.card_Ico, Nat.add_sub_cancel_left]
    _ = (starts.biUnion fun b => Finset.Ico b (b + size b)).card :=
        (Finset.card_biUnion hdisjoint).symm
    _ ≤ (Finset.range limit).card := Finset.card_le_card hsub
    _ = limit := Finset.card_range limit
/-- The memories agree on the `n` addresses from `a`. -/
def Same (m m' : Mem) (a n : ℕ) : Prop := ∀ x, a ≤ x → x < a + n → m' x = m x

theorem Same.refl (m : Mem) (a n : ℕ) : Same m m a n := fun _ _ _ => rfl

theorem Same.trans {m m' m'' : Mem} {a n : ℕ} (h : Same m m' a n) (h' : Same m' m'' a n) :
    Same m m'' a n :=
  fun x hx hxn => (h' x hx hxn).trans (h x hx hxn)

theorem Same.mono {m m' : Mem} {a n b k : ℕ} (h : Same m m' a n) (hb : a ≤ b)
    (hk : b + k ≤ a + n) : Same m m' b k :=
  fun x hx hxk => h x (by omega) (by omega)

/-! ## Mapped memory -/

/-- All of the `n` addresses from `a` are mapped. -/
def Mapped (m : Mem) (a n : ℕ) : Prop := ∀ i, i < n → (m (a + i)).isSome = true

instance (m : Mem) (a n : ℕ) : Decidable (Mapped m a n) := Nat.decidableBallLT n _

theorem Mapped.mono {m : Mem} {a n b k : ℕ} (h : Mapped m a n) (hb : a ≤ b)
    (hk : b + k ≤ a + n) : Mapped m b k := by
  intro i hi
  have hsome := h (b - a + i) (by omega)
  rwa [show a + (b - a + i) = b + i by omega] at hsome

theorem Mapped.congr {m m' : Mem} {a n : ℕ} (h : Mapped m a n) (hsame : Same m m' a n) :
    Mapped m' a n := by
  intro i hi
  rw [hsame (a + i) (by omega) (by omega)]
  exact h i hi

/-- Memory that is mapped and memory that is not. -/
theorem Mapped.apart {m : Mem} {a n b k : ℕ} (h : Mapped m b k) (hk : 0 < k) (hn : 0 < n)
    (hnone : ∀ x, a ≤ x → x < a + n → m x = none) : Apart a n b k := by
  unfold Apart
  by_contra hover
  have hnot : ∀ i < k, ¬ (a ≤ b + i ∧ b + i < a + n) := by
    intro i hi hx
    have hsome := h i hi
    rw [hnone (b + i) hx.1 hx.2] at hsome
    cases hsome
  have hfirst := hnot 0 hk
  have hnext := hnot (a - b)
  omega

/-- All of a range gets the same content: `some 0` when it is mapped, `none` when it is unmapped. -/
def fill (m : Mem) (a n : ℕ) (v : Option UInt8) : Mem :=
  fun x => if a ≤ x ∧ x < a + n then v else m x

theorem fill_of_mem {m : Mem} {a n x : ℕ} {v : Option UInt8} (h : a ≤ x ∧ x < a + n) :
    fill m a n v x = v := if_pos h

theorem fill_of_not_mem {m : Mem} {a n x : ℕ} {v : Option UInt8} (h : ¬ (a ≤ x ∧ x < a + n)) :
    fill m a n v x = m x := if_neg h

theorem fill_zero (m : Mem) (a : ℕ) (v : Option UInt8) : fill m a 0 v = m :=
  funext fun _ => fill_of_not_mem (by omega)

theorem same_fill {m : Mem} {a n b k : ℕ} (v : Option UInt8) (h : Apart b k a n) :
    Same m (fill m a n v) b k := by
  intro x hx hxk
  refine fill_of_not_mem ?_
  unfold Apart at h
  omega

/-! ## Reading and writing -/

/-- The `n` bytes from `a`. -/
def readBytes (m : Mem) (a : ℕ) : ℕ → Option (List UInt8)
  | 0 => some []
  | n + 1 => do
      let b ← m a
      let bs ← readBytes m (a + 1) n
      return b :: bs

/-- What is read, byte by byte. -/
theorem readBytes_eq_some_iff {m : Mem} {a n : ℕ} {bs : List UInt8} :
    readBytes m a n = some bs ↔ bs.length = n ∧ ∀ i, i < n → m (a + i) = bs[i]? := by
  induction n generalizing a bs with
  | zero =>
      rw [readBytes, Option.some.injEq, List.length_eq_zero_iff]
      exact ⟨fun h => ⟨h.symm, fun i hi => absurd hi (Nat.not_lt_zero i)⟩, fun h => h.1.symm⟩
  | succ n ih =>
      rw [readBytes]
      constructor
      · intro h
        obtain ⟨b, hb, h⟩ := Option.bind_eq_some_iff.1 h
        obtain ⟨rest, hrest, h⟩ := Option.bind_eq_some_iff.1 h
        cases h
        obtain ⟨hlen, hget⟩ := ih.1 hrest
        refine ⟨by rw [List.length_cons, hlen], fun i hi => ?_⟩
        cases i with
        | zero => rw [Nat.add_zero, hb]; rfl
        | succ i =>
            rw [List.getElem?_cons_succ, ← hget i (by omega), Nat.add_assoc, Nat.add_comm 1 i]
      · rintro ⟨hlen, hget⟩
        cases bs with
        | nil => cases hlen
        | cons b rest =>
            have hb : m a = some b := hget 0 (Nat.succ_pos n)
            have hrest : readBytes m (a + 1) n = some rest := by
              refine ih.2 ⟨Nat.succ.inj hlen, fun i hi => ?_⟩
              rw [Nat.add_assoc, Nat.add_comm 1 i, hget (i + 1) (by omega)]
              rfl
            rw [hb, hrest]
            rfl

/-- What is read depends on the range alone. -/
theorem readBytes_congr {m m' : Mem} {a n : ℕ} (h : Same m m' a n) :
    readBytes m' a n = readBytes m a n := by
  induction n generalizing a with
  | zero => rfl
  | succ n ih =>
      rw [readBytes, readBytes, h a (Nat.le_refl a) (by omega), ih (h.mono (by omega) (by omega))]

/-- Mapped bytes can be read. -/
theorem exists_readBytes {m : Mem} {a n : ℕ} (h : Mapped m a n) : ∃ bs, readBytes m a n = some bs := by
  induction n generalizing a with
  | zero => exact ⟨[], rfl⟩
  | succ n ih =>
      obtain ⟨b, hb⟩ := Option.isSome_iff_exists.1 (h 0 (Nat.succ_pos n))
      obtain ⟨bs, hbs⟩ := ih (h.mono (Nat.le_succ a) (by omega))
      refine ⟨b :: bs, ?_⟩
      rw [Nat.add_zero] at hb
      rw [readBytes, hb, hbs]
      rfl

/-- The memory with the bytes `bs` from `a` on. -/
def put (m : Mem) (a : ℕ) (bs : List UInt8) : Mem :=
  fun x => if a ≤ x ∧ x < a + bs.length then bs[x - a]? else m x

/-- A write, which faults unless all of its range is mapped. -/
def writeBytes (m : Mem) (a : ℕ) (bs : List UInt8) : Option Mem :=
  if Mapped m a bs.length then some (put m a bs) else none

theorem writeBytes_eq {m : Mem} {a : ℕ} {bs : List UInt8} (h : Mapped m a bs.length) :
    writeBytes m a bs = some (put m a bs) := if_pos h

theorem same_put {m : Mem} {a b k : ℕ} {bs : List UInt8} (h : Apart b k a bs.length) :
    Same m (put m a bs) b k := by
  intro x hx hxk
  refine if_neg ?_
  unfold Apart at h
  omega

/-- What was written is read back. -/
theorem readBytes_put_self (m : Mem) (a : ℕ) (bs : List UInt8) :
    readBytes (put m a bs) a bs.length = some bs := by
  refine readBytes_eq_some_iff.2 ⟨rfl, fun i hi => ?_⟩
  rw [put, if_pos (by omega), Nat.add_sub_cancel_left]

/-- A write maps and unmaps nothing. -/
theorem isSome_put {m : Mem} {a : ℕ} {bs : List UInt8} (h : Mapped m a bs.length) (x : ℕ) :
    (put m a bs x).isSome = (m x).isSome := by
  unfold put
  split_ifs with hx
  · have hmapped := h (x - a) (by omega)
    rw [show a + (x - a) = x by omega] at hmapped
    rw [hmapped, List.getElem?_eq_getElem (by omega : x - a < bs.length)]
    rfl
  · rfl

theorem Mapped.put {m : Mem} {a b n : ℕ} {bs : List UInt8} (h : Mapped m b n)
    (hbs : Mapped m a bs.length) : Mapped (put m a bs) b n := by
  intro i hi
  rw [isSome_put hbs]
  exact h i hi

/-! ## Words -/

/-- The lowest `n` bytes of a number, the lowest first. -/
def leBytes : ℕ → ℕ → List UInt8
  | 0, _ => []
  | n + 1, v => UInt8.ofNat v :: leBytes n (v / 256)

def leNat : List UInt8 → ℕ
  | [] => 0
  | b :: bs => b.toNat + 256 * leNat bs

@[simp] theorem length_leBytes (n v : ℕ) : (leBytes n v).length = n := by
  induction n generalizing v with
  | zero => rfl
  | succ n ih => rw [leBytes, List.length_cons, ih]

theorem leNat_leBytes (n v : ℕ) : leNat (leBytes n v) = v % 256 ^ n := by
  induction n generalizing v with
  | zero => rw [leBytes, leNat, Nat.pow_zero, Nat.mod_one]
  | succ n ih =>
      have hpow : 256 ^ (n + 1) = 256 * 256 ^ n := by rw [Nat.pow_succ, Nat.mul_comm]
      rw [leBytes, leNat, ih, UInt8.toNat_ofNat', hpow, Nat.mod_mul]

def load64 (m : Mem) (a : ℕ) : Option ℕ := (readBytes m a 8).map leNat

def store64 (m : Mem) (a v : ℕ) : Option Mem := writeBytes m a (leBytes 8 v)

/-- The memory with the word `v` at `a`. -/
def put64 (m : Mem) (a v : ℕ) : Mem := put m a (leBytes 8 v)

theorem store64_eq {m : Mem} {a : ℕ} (h : Mapped m a 8) (v : ℕ) :
    store64 m a v = some (put64 m a v) :=
  writeBytes_eq (by rwa [length_leBytes])

theorem load64_put64_self {v : ℕ} (hv : v < 2 ^ 64) (m : Mem) (a : ℕ) :
    load64 (put64 m a v) a = some v := by
  have hread := readBytes_put_self m a (leBytes 8 v)
  rw [length_leBytes] at hread
  rw [load64, put64, hread, Option.map_some, leNat_leBytes, Nat.mod_eq_of_lt (by simpa using hv)]

theorem load64_of_zero {m : Mem} {a : ℕ} (h : ∀ x, a ≤ x → x < a + 8 → m x = some 0) :
    load64 m a = some 0 := by
  have hread : readBytes m a 8 = some (List.replicate 8 0) := by
    refine readBytes_eq_some_iff.2 ⟨rfl, fun i hi => ?_⟩
    rw [h (a + i) (by omega) (by omega), List.getElem?_replicate_of_lt hi]
  rw [load64, hread]
  rfl

theorem load64_congr {m m' : Mem} {a : ℕ} (h : Same m m' a 8) : load64 m' a = load64 m a := by
  rw [load64, load64, readBytes_congr h]

theorem same_put64 {m : Mem} {a v b k : ℕ} (h : Apart b k a 8) : Same m (put64 m a v) b k :=
  same_put (by rwa [length_leBytes])

theorem Mapped.put64 {m : Mem} {a v b n : ℕ} (h : Mapped m b n) (ha : Mapped m a 8) :
    Mapped (put64 m a v) b n :=
  h.put (by rwa [length_leBytes])

theorem isSome_put64 {m : Mem} {a v : ℕ} (h : Mapped m a 8) (x : ℕ) :
    (ByteMemory.put64 m a v x).isSome = (m x).isSome :=
  isSome_put (by rwa [length_leBytes]) x

/-! ## Signed words -/

/-- A signed word, in two's complement. -/
def loadInt (m : Mem) (a : ℕ) : Option ℤ := (load64 m a).map fun v : ℕ => (v : ℤ).bmod (2 ^ 64)

def storeInt (m : Mem) (a : ℕ) (z : ℤ) : Option Mem := store64 m a (z % 2 ^ 64).toNat

/-- The memory with the signed word `z` at `a`. -/
def putInt (m : Mem) (a : ℕ) (z : ℤ) : Mem := put64 m a (z % 2 ^ 64).toNat

theorem storeInt_eq {m : Mem} {a : ℕ} (h : Mapped m a 8) (z : ℤ) :
    storeInt m a z = some (putInt m a z) :=
  store64_eq h _

theorem loadInt_putInt_self {z : ℤ} (hlo : -2 ^ 63 ≤ z) (hhi : z < 2 ^ 63) (m : Mem) (a : ℕ) :
    loadInt (putInt m a z) a = some z := by
  have hnonneg : 0 ≤ z % 2 ^ 64 := Int.emod_nonneg _ (by decide)
  have hlt : z % 2 ^ 64 < 2 ^ 64 := Int.emod_lt_of_pos _ (by decide)
  rw [loadInt, putInt, load64_put64_self (by omega), Option.map_some, Int.toNat_of_nonneg hnonneg]
  have hmod : (z % 2 ^ 64).bmod (2 ^ 64) = z.bmod (2 ^ 64) := Int.emod_bmod z (2 ^ 64)
  rw [hmod, Int.bmod_eq_of_le (by omega) (by omega)]

theorem loadInt_of_zero {m : Mem} {a : ℕ} (h : ∀ x, a ≤ x → x < a + 8 → m x = some 0) :
    loadInt m a = some 0 := by
  rw [loadInt, load64_of_zero h]
  rfl

theorem loadInt_congr {m m' : Mem} {a : ℕ} (h : Same m m' a 8) : loadInt m' a = loadInt m a := by
  rw [loadInt, loadInt, load64_congr h]

end ByteMemory
