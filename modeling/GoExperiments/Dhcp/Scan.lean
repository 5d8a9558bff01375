import GoExperiments.Dhcp.Serve

/-!
# The circular scan

`Handler.freeLease` draws a start `b` and looks for a free lease number in two loops, from `b`
to the end of the pool and from `0` to `b`.

* `cyclicFrom` — the numbers of the pool in cyclic order; `scanned_eq_cyclicFrom` says that the
  two loops visit them in this order, each once.
* `free_lease_cyclic` — the scan returns the first free number in cyclic order, `-1` exactly when
  there is none, and so the draw does not decide whether a `Discover` is answered.
-/

namespace Dhcp

open Go

/-- The numbers `b, b + 1, …, n - 1, 0, …, b - 1`. -/
def cyclicFrom (n b : ℤ) : List ℤ := (List.range n.toNat).map fun k : ℕ => (b + k) % n

/-- The two loops go round once. -/
theorem scanned_eq_cyclicFrom {n b : ℤ} (hb : 0 ≤ b) (hbn : b < n) :
    [(b, n), (0, b)].flatMap (fun v => intRange v.1 v.2) = cyclicFrom n b := by
  have hsplit : n.toNat = (n - b).toNat + b.toNat := by omega
  have hfirst : intRange b n = (List.range (n - b).toNat).map fun k : ℕ => (b + k) % n := by
    refine List.map_congr_left fun k hk => ?_
    rw [List.mem_range] at hk
    rw [Int.emod_eq_of_lt (by omega) (by omega)]
  -- the second loop starts where the first one has reached `n`
  have hsecond : intRange 0 b =
      (List.range b.toNat).map fun k : ℕ => (b + ((n - b).toNat + k : ℕ)) % n := by
    rw [intRange, Int.sub_zero]
    refine List.map_congr_left fun k hk => ?_
    rw [List.mem_range] at hk
    have hround : b + ((n - b).toNat + k : ℕ) = (k : ℤ) + n := by omega
    rw [hround, Int.add_emod_right, Int.emod_eq_of_lt (by omega) (by omega), Int.zero_add]
  simp only [List.flatMap_cons, List.flatMap_nil, List.append_nil]
  rw [hfirst, hsecond, cyclicFrom, hsplit, List.range_add, List.map_append, List.map_map]
  rfl

/-- The number has a lease that has not expired. -/
def Unexpired (leases : Leases) (now i : ℤ) : Prop :=
  ∃ l, leases.lookup i = some l ∧ now ≤ l.expiry

theorem isFree_eq_false_iff {leases : Leases} {now i : ℤ} :
    isFree leases now i = false ↔ Unexpired leases now i := by
  unfold isFree Unexpired
  cases leases.lookup i with
  | none => simp
  | some l => simp

/-- A number other than `-1` is the first free one in cyclic order. -/
theorem freeLeaseFrom_first {h : Handler} {now b : ℤ} (hb : 0 ≤ b) (hbn : b < h.leaseRange)
    (hne : freeLeaseFrom h now b ≠ -1) :
    ∃ k : ℕ, k < h.leaseRange ∧ freeLeaseFrom h now b = (b + k) % h.leaseRange ∧
      ¬ Unexpired h.leases now (freeLeaseFrom h now b) ∧
      ∀ j : ℕ, j < k → Unexpired h.leases now ((b + j) % h.leaseRange) := by
  have hscan : freeLeaseFrom h now b =
      ((cyclicFrom h.leaseRange b).find? (isFree h.leases now)).getD (-1) := by
    rw [freeLeaseFrom, scanned_eq_cyclicFrom hb hbn]
  cases hfind : (cyclicFrom h.leaseRange b).find? (isFree h.leases now) with
  | none =>
      rw [hfind] at hscan
      exact absurd hscan hne
  | some i =>
      obtain ⟨hfree, k, hk, hget, hbefore⟩ := List.find?_eq_some_iff_getElem.1 hfind
      have hlen : k < h.leaseRange.toNat := by simpa [cyclicFrom] using hk
      have hi : i = (b + k) % h.leaseRange := by simpa [cyclicFrom] using hget.symm
      rw [hfind] at hscan
      rw [hscan]
      refine ⟨k, by omega, hi, ?_, fun j hj => ?_⟩
      · rw [← isFree_eq_false_iff, Option.getD_some, hfree]
        simp
      · rw [← isFree_eq_false_iff]
        simpa [cyclicFrom] using hbefore j hj

theorem freeLeaseFrom_eq_neg_one_iff {h : Handler} {b : ℤ} (now : ℤ) (hb : 0 ≤ b)
    (hbn : b < h.leaseRange) :
    freeLeaseFrom h now b = -1 ↔
      ∀ i, 0 ≤ i → i < h.leaseRange → Unexpired h.leases now i := by
  obtain ⟨h0, hlt, hfree⟩ | ⟨hneg, hnone⟩ := freeLeaseFrom_spec now hb hbn
  · constructor
    · intro hneg
      omega
    · intro hall
      rw [isFree_eq_false_iff.2 (hall _ h0 hlt)] at hfree
      cases hfree
  · exact ⟨fun _ i hi hin => isFree_eq_false_iff.1 (hnone i hi hin), fun _ => hneg⟩

/-! ## `Discover` -/

/-- The message gets a reply. -/
def Answered (sel : SelectOrderOrAll) (h : Handler) (c : Choices) (m : Message) : Prop :=
  ∃ h' reply, serveDHCP sel h c m = .ok (h', some reply)

/-- A `Discover` is answered when the loop over the leases meets one of the client, and else
when some number of the pool is free. -/
theorem answered_discover_iff (sel : SelectOrderOrAll) {h : Handler} (hrange : 0 < h.leaseRange)
    (c : Choices) {m : Message} (hm : m.msgType = .discover) :
    Answered sel h c m ↔
      GoMap.firstKey (fun l : Lease => l.nic == m.nic) c.order ≠ none ∨
        ¬ ∀ i, 0 ≤ i → i < h.leaseRange → Unexpired h.leases c.now i := by
  have hb0 : 0 ≤ (c.rand : ℤ) % h.leaseRange := Int.emod_nonneg _ (ne_of_gt hrange)
  have hbn : (c.rand : ℤ) % h.leaseRange < h.leaseRange := Int.emod_lt_of_pos _ hrange
  have hscan := freeLeaseFrom_eq_neg_one_iff (h := h) c.now hb0 hbn
  rw [← hscan, Answered, serveDHCP, hm]
  simp only [discoverLease, freeLease_eq hrange]
  cases GoMap.firstKey (fun l : Lease => l.nic == m.nic) c.order with
  | some i => simp
  | none =>
      by_cases hneg : freeLeaseFrom h c.now ((c.rand : ℤ) % h.leaseRange) = -1
      · simp [hneg, bind, Except.bind, pure, Except.pure]
      · simp [hneg, bind, Except.bind, pure, Except.pure]

/-- **The circular scan.**  For every start `b` of the pool, which `rand.Intn` may draw, the scan
returns the first number in cyclic order from `b` on that has no lease or an expired one; it
returns `-1` exactly when every number of the pool has a lease that has not expired.  So the draw
does not decide whether a `Discover` is answered. -/
theorem free_lease_cyclic (h : Handler) (hrange : 1 ≤ h.leaseRange) (now b : ℤ) (hb : 0 ≤ b)
    (hbn : b < h.leaseRange) :
    (∃ free, (∃ rand, intn h.leaseRange rand = .ok b) ∧
      (∀ rand, intn h.leaseRange rand = .ok b → freeLease h now rand = .ok free) ∧
      (free ≠ -1 → ∃ k : ℕ, k < h.leaseRange ∧ free = (b + k) % h.leaseRange ∧
        ¬ Unexpired h.leases now free ∧
        ∀ j : ℕ, j < k → Unexpired h.leases now ((b + j) % h.leaseRange)) ∧
      (free = -1 ↔ ∀ i, 0 ≤ i → i < h.leaseRange → Unexpired h.leases now i)) ∧
    ∀ (sel : SelectOrderOrAll) (c : Choices) (m : Message) (rand rand' : ℕ),
      m.msgType = .discover →
        (Answered sel h { c with rand := rand } m ↔ Answered sel h { c with rand := rand' } m) := by
  constructor
  · refine ⟨freeLeaseFrom h now b, ⟨b.toNat, ?_⟩, fun rand hrand => freeLease_of_intn hrand now,
      freeLeaseFrom_first hb hbn, freeLeaseFrom_eq_neg_one_iff now hb hbn⟩
    rw [intn_eq_ok (by omega), Int.toNat_of_nonneg hb, Int.emod_eq_of_lt hb hbn]
  · intro sel c m rand rand' hm
    rw [answered_discover_iff sel (by omega) _ hm, answered_discover_iff sel (by omega) _ hm]

/-- A pool of three with two unexpired leases. -/
def twoLeased : Handler where
  ip := []
  options := ∅
  start := 0x0a0ac80a
  leaseRange := 3
  leaseDuration := 7200 * second
  leases := ((∅ : Leases).insert 1 ⟨"01", 9⟩).insert 2 ⟨"02", 9⟩

/-- From `1` on, the scan goes round to `0`. -/
theorem free_lease_cyclic_round :
    ∃ rand, intn 3 rand = .ok 1 ∧ freeLease twoLeased 5 rand = .ok 0 := by
  obtain ⟨⟨free, ⟨rand, hrand⟩, hscan, hfirst, hnone⟩, -⟩ :=
    free_lease_cyclic twoLeased (by decide) 5 1 (by decide) (by decide)
  have hzero : ¬ Unexpired twoLeased.leases 5 0 := by
    rw [← isFree_eq_false_iff]
    decide
  have hne : free ≠ -1 := fun h => hzero (hnone.1 h 0 (by decide) (by decide))
  obtain ⟨k, hk, heq, hfree, -⟩ := hfirst hne
  have hleased : ∀ i ∈ [(1 : ℤ), 2], Unexpired twoLeased.leases 5 i := by
    intro i hi
    rw [← isFree_eq_false_iff]
    revert i
    decide
  have hrange : twoLeased.leaseRange = 3 := rfl
  rw [hrange] at hk heq
  have hmem : free ∉ [(1 : ℤ), 2] := fun h => hfree (hleased free h)
  have hfree0 : free = 0 := by
    simp only [List.mem_cons, List.not_mem_nil, or_false] at hmem
    omega
  rw [← hfree0]
  exact ⟨rand, hrand, hscan rand hrand⟩

end Dhcp
