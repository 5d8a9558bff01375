import GoExperiments.Dhcp.Handler

/-!
# What one message does

One specification lemma for each function of the handler, so that no later proof
unfolds one.

* `mem_intRange`, `freeLeaseFrom_spec`, `freeLeaseFrom_start` — the circular scan
  returns a free number of the pool, and the start itself when that is free.
* `discoverLease_spec` — the number a `Discover` is answered with is a previous
  lease of the client or, when the client has none, a free one.
* `requestLease_eq_some` — a `Request` asks for number `n` exactly when the
  requested address is the nonzero address `start + n`, without wrap-around, and
  `n` lies in the pool.
* `Served`, `served_of_serveDHCP` — everything a call of `serveDHCP` can do, one
  constructor a way out of the function.
-/

namespace Dhcp

/-! ## The circular scan -/

theorem mem_intRange {lo hi x : ℤ} : x ∈ intRange lo hi ↔ lo ≤ x ∧ x < hi := by
  simp only [intRange, List.mem_map, List.mem_range]
  constructor
  · rintro ⟨k, hk, rfl⟩
    omega
  · rintro ⟨h1, h2⟩
    exact ⟨(x - lo).toNat, by omega, by omega⟩

theorem intRange_of_lt {lo hi : ℤ} (h : lo < hi) : ∃ rest, intRange lo hi = lo :: rest := by
  obtain ⟨k, hk⟩ : ∃ k, (hi - lo).toNat = k + 1 := ⟨(hi - lo).toNat - 1, by omega⟩
  rw [intRange, hk, List.range_succ_eq_map]
  simp only [List.map_cons, Nat.cast_zero, add_zero]
  exact ⟨_, rfl⟩

/-- The numbers the scan visits, in order. -/
theorem mem_scanned {b r x : ℤ} (hb : 0 ≤ b) (hbr : b ≤ r) :
    x ∈ [(b, r), (0, b)].flatMap (fun v => intRange v.1 v.2) ↔ 0 ≤ x ∧ x < r := by
  simp only [List.flatMap_cons, List.flatMap_nil, List.append_nil, List.mem_append, mem_intRange]
  omega

/-- What the scan returns is free and in the pool, unless it is `-1`; and it is
`-1` only when nothing in the pool is free. -/
theorem freeLeaseFrom_spec {h : Handler} {b : ℤ} (now : ℤ) (hb : 0 ≤ b) (hbr : b < h.leaseRange) :
    (0 ≤ freeLeaseFrom h now b ∧ freeLeaseFrom h now b < h.leaseRange ∧
      isFree h.leases now (freeLeaseFrom h now b) = true) ∨
    (freeLeaseFrom h now b = -1 ∧
      ∀ i, 0 ≤ i → i < h.leaseRange → isFree h.leases now i = false) := by
  rw [freeLeaseFrom]
  cases hf : ([(b, h.leaseRange), (0, b)].flatMap fun v => intRange v.1 v.2).find?
      (isFree h.leases now) with
  | some i =>
      have hmem := (mem_scanned hb hbr.le).1 (List.mem_of_find?_eq_some hf)
      exact Or.inl ⟨hmem.1, hmem.2, List.find?_some hf⟩
  | none =>
      refine Or.inr ⟨rfl, fun i h0 hi => ?_⟩
      simpa using List.find?_eq_none.1 hf i ((mem_scanned hb hbr.le).2 ⟨h0, hi⟩)

/-- The scan tries its start first. -/
theorem freeLeaseFrom_start {h : Handler} {now b : ℤ} (hbr : b < h.leaseRange)
    (hfree : isFree h.leases now b = true) : freeLeaseFrom h now b = b := by
  obtain ⟨rest, hrest⟩ := intRange_of_lt hbr
  rw [freeLeaseFrom, List.flatMap_cons, hrest, List.cons_append, List.find?_cons_of_pos hfree]
  rfl

theorem isFree_of_lookup_eq_none {leases : Leases} {i : ℤ} (h : leases.lookup i = none) (now : ℤ) :
    isFree leases now i = true := by
  simp [isFree, h]

theorem isFree_of_expired {leases : Leases} {i now : ℤ} {l : Lease} (h : leases.lookup i = some l)
    (hexp : l.expiry < now) : isFree leases now i = true := by
  simp [isFree, h, hexp]

/-! ## `Discover` -/

/-- Does the client hold a lease? -/
def Holds (leases : Leases) (nic : String) : Prop :=
  ∃ n l, leases.lookup n = some l ∧ l.nic = nic

theorem firstKey_eq_none_iff {leases : Leases} {o : List (GoMap.Entry ℤ Lease)} {nic : String}
    (ho : GoMap.IsOrder o leases) :
    GoMap.firstKey (fun l : Lease => l.nic == nic) o = none ↔ ¬ Holds leases nic := by
  rw [GoMap.firstKey_eq_none ho]
  constructor
  · rintro h ⟨n, l, hl, hnic⟩
    simpa [hnic] using h n l hl
  · intro h n l hl
    have hne : l.nic ≠ nic := fun hnic => h ⟨n, l, hl, hnic⟩
    simpa using hne

theorem lookup_of_firstKey {leases : Leases} {o : List (GoMap.Entry ℤ Lease)} {nic : String} {n : ℤ}
    (ho : GoMap.IsOrder o leases)
    (h : GoMap.firstKey (fun l : Lease => l.nic == nic) o = some n) :
    ∃ l, leases.lookup n = some l ∧ l.nic = nic := by
  obtain ⟨l, hl, hnic⟩ := GoMap.lookup_of_firstKey ho h
  exact ⟨l, hl, by simpa using hnic⟩

theorem intn_eq_ok {n : ℤ} (hn : 0 < n) (rand : ℕ) : intn n rand = .ok ((rand : ℤ) % n) :=
  if_neg (not_le.2 hn)

theorem freeLease_of_intn {h : Handler} {rand : ℕ} {b : ℤ} (hb : intn h.leaseRange rand = .ok b)
    (now : ℤ) : freeLease h now rand = .ok (freeLeaseFrom h now b) := by
  rw [freeLease, hb]
  rfl

/-- With a pool that is not empty, a start is drawn and the scan begins there. -/
theorem freeLease_eq {h : Handler} (hr : 0 < h.leaseRange) (now : ℤ) (rand : ℕ) :
    freeLease h now rand = .ok (freeLeaseFrom h now ((rand : ℤ) % h.leaseRange)) :=
  freeLease_of_intn (intn_eq_ok hr rand) now

/-- The number a `Discover` is answered with. -/
theorem discoverLease_spec {h : Handler} {c : Choices} {nic : String} {n : ℤ}
    (ho : GoMap.IsOrder c.order h.leases) (hd : discoverLease h c nic = .ok (some n)) :
    (∃ l, h.leases.lookup n = some l ∧ l.nic = nic) ∨
    (¬ Holds h.leases nic ∧ 0 ≤ n ∧ n < h.leaseRange ∧ isFree h.leases c.now n = true) := by
  rw [discoverLease] at hd
  cases hk : GoMap.firstKey (fun l : Lease => l.nic == nic) c.order with
  | some i =>
      rw [hk] at hd
      cases hd
      exact Or.inl (lookup_of_firstKey ho hk)
  | none =>
      rw [hk] at hd
      refine Or.inr ⟨(firstKey_eq_none_iff ho).1 hk, ?_⟩
      by_cases hr : h.leaseRange ≤ 0
      · simp only [freeLease, intn, if_pos hr] at hd
        cases hd
      · rw [not_le] at hr
        rw [freeLease_eq hr] at hd
        have hb0 : 0 ≤ (c.rand : ℤ) % h.leaseRange := Int.emod_nonneg _ (by omega)
        have hbr : (c.rand : ℤ) % h.leaseRange < h.leaseRange := Int.emod_lt_of_pos _ (by omega)
        rcases freeLeaseFrom_spec c.now hb0 hbr with ⟨h0, hlt, hfree⟩ | ⟨hneg, _⟩
        · have hne : freeLeaseFrom h c.now ((c.rand : ℤ) % h.leaseRange) ≠ -1 := by omega
          simp only [bind, Except.bind, pure, Except.pure, if_neg hne, Except.ok.injEq,
            Option.some.injEq] at hd
          subst hd
          exact ⟨h0, hlt, hfree⟩
        · simp [bind, Except.bind, pure, Except.pure, hneg] at hd

/-- A client without a lease can be offered any free number of the pool: the
draw may fall on it. -/
theorem discoverLease_free {h : Handler} {c : Choices} {nic : String} {n : ℤ}
    (ho : GoMap.IsOrder c.order h.leases) (hnone : ¬ Holds h.leases nic) (hn0 : 0 ≤ n)
    (hn : n < h.leaseRange) (hrand : (c.rand : ℤ) = n) (hfree : isFree h.leases c.now n = true) :
    discoverLease h c nic = .ok (some n) := by
  have hmod : (c.rand : ℤ) % h.leaseRange = n := by
    rw [hrand]; exact Int.emod_eq_of_lt hn0 hn
  have hne : freeLeaseFrom h c.now n = n := freeLeaseFrom_start hn hfree
  rw [discoverLease, (firstKey_eq_none_iff ho).2 hnone, freeLease_eq (by omega), hmod, hne]
  simp only [bind, Except.bind, pure, Except.pure, if_neg (by omega : ¬ n = -1)]

/-- With an empty pool a client without a lease makes the handler panic. -/
theorem discoverLease_panic {h : Handler} {c : Choices} {nic : String}
    (ho : GoMap.IsOrder c.order h.leases) (hnone : ¬ Holds h.leases nic) (hr : h.leaseRange ≤ 0) :
    discoverLease h c nic = .error "invalid argument to Intn" := by
  rw [discoverLease, (firstKey_eq_none_iff ho).2 hnone]
  simp [freeLease, intn, hr, bind, Except.bind]

/-- With a pool that is not empty `Discover` does not panic. -/
theorem discoverLease_ne_error {h : Handler} (hr : 0 < h.leaseRange) (c : Choices)
    (nic err : String) :
    discoverLease h c nic ≠ .error err := by
  intro hd
  rw [discoverLease] at hd
  split at hd
  · cases hd
  · rw [freeLease_eq hr] at hd
    cases hd

/-! ## `Request` -/

/-- A `Request` asks for number `n` exactly when the requested address is the
address `start + n`, computed without wrap-around, is not `0.0.0.0`, and `n` is
in the pool. -/
theorem requestLease_eq_some {h : Handler} {m : Message} {n : ℤ} :
    requestLease h m = some n ↔
      ∃ ip : IPv4, m.reqIP = IPv4.bytes ip ∧ ip ≠ 0 ∧ (ip.toNat : ℤ) = h.start.toNat + n ∧
        0 ≤ n ∧ n < h.leaseRange := by
  constructor
  · intro hreq
    simp only [requestLease] at hreq
    split at hreq
    · rename_i hlen
      split at hreq
      · rename_i hn
        cases hreq
        refine ⟨bigEndianUint32 m.reqIP, (bytes_bigEndianUint32 hlen.1).symm, ?_, ?_, hn⟩
        · intro hzero
          have heq := (ipEqual_bytes_ipv4zero (bigEndianUint32 m.reqIP)).2 hzero
          rw [bytes_bigEndianUint32 hlen.1, hlen.2] at heq
          exact absurd heq (by simp)
        · rw [ipRange]; omega
      · cases hreq
    · cases hreq
  · rintro ⟨ip, hip, hne, hval, hn0, hn⟩
    have hzero : ipEqual (IPv4.bytes ip) ipv4zero = false := by
      rw [← Bool.not_eq_true, ipEqual_bytes_ipv4zero]
      exact hne
    have hnum : ipRange h.start ip - 1 = n := by rw [ipRange]; omega
    simp [requestLease, hip, hzero, hnum, hn0, hn]

theorem grantable_iff {leases : Leases} {nic : String} {n : ℤ} :
    grantable leases nic n = true ↔ ∀ l, leases.lookup n = some l → l.nic = nic := by
  rw [grantable]
  cases hl : leases.lookup n with
  | none => simp
  | some l => simp

/-! ## Everything a call can do -/

/-- A `Release` or a `Decline`. -/
def Message.IsRelease (m : Message) : Prop := m.msgType = .release ∨ m.msgType = .decline

theorem Message.IsRelease.ne_discover {m : Message} (h : m.IsRelease) : m.msgType ≠ .discover := by
  rcases h with h | h <;> rw [h] <;> decide

theorem Message.IsRelease.ne_request {m : Message} (h : m.IsRelease) : m.msgType ≠ .request := by
  rcases h with h | h <;> rw [h] <;> decide

/-- The ways out of `serveDHCP`, with the handler it leaves and the reply. -/
inductive Served (sel : SelectOrderOrAll) (h : Handler) (c : Choices) (m : Message) :
    Handler → Option Reply → Prop
  | offer {n : ℤ} : m.msgType = .discover → discoverLease h c m.nic = .ok (some n) →
      Served sel h c m h (some (offerReply sel h m n))
  | full : m.msgType = .discover → Served sel h c m h none
  | ignored : m.msgType = .request → m.forUs h.ip = false → Served sel h c m h none
  | nak : m.msgType = .request →
      (∀ n, requestLease h m = some n → grantable h.leases m.nic n = false) →
      Served sel h c m h (some (nakReply h m))
  | ack {n : ℤ} : m.msgType = .request → m.forUs h.ip = true → requestLease h m = some n →
      grantable h.leases m.nic n = true →
      Served sel h c m (h.grant n m.nic c.now) (some (ackReply sel h m))
  | release {i : ℤ} : m.IsRelease →
      GoMap.firstKey (fun l : Lease => l.nic == m.nic) c.order = some i →
      Served sel h c m (h.delete i) none
  | noLease : m.IsRelease →
      GoMap.firstKey (fun l : Lease => l.nic == m.nic) c.order = none → Served sel h c m h none
  | other : m.msgType ≠ .discover → m.msgType ≠ .request → ¬ m.IsRelease →
      Served sel h c m h none

theorem served_of_release {sel : SelectOrderOrAll} {h h' : Handler} {c : Choices} {m : Message}
    {r : Option Reply} (hm : m.IsRelease)
    (hs : (match GoMap.firstKey (fun l : Lease => l.nic == m.nic) c.order with
      | some i => (.ok (h.delete i, none) : Except String (Handler × Option Reply))
      | none => .ok (h, none)) = .ok (h', r)) : Served sel h c m h' r := by
  split at hs
  · rename_i i hi
    cases hs
    exact .release hm hi
  · rename_i hi
    cases hs
    exact .noLease hm hi

/-- **Everything a call can do.** -/
theorem served_of_serveDHCP {sel : SelectOrderOrAll} {h h' : Handler} {c : Choices} {m : Message}
    {r : Option Reply} (hs : serveDHCP sel h c m = .ok (h', r)) : Served sel h c m h' r := by
  rw [serveDHCP] at hs
  split at hs
  · -- Discover
    rename_i hm
    split at hs
    · cases hs
    · cases hs
      exact .full hm
    · rename_i free hfree
      cases hs
      exact .offer hm hfree
  · -- Request
    rename_i hm
    split at hs
    · rename_i hus
      cases hs
      exact .ignored hm hus
    · rename_i hus
      split at hs
      · rename_i hreq
        cases hs
        refine .nak hm fun n hn => ?_
        rw [hreq] at hn
        cases hn
      · rename_i n hreq
        split at hs
        · rename_i hg
          cases hs
          exact .ack hm (by simpa using hus) hreq hg
        · rename_i hg
          cases hs
          refine .nak hm fun n' hn' => ?_
          rw [hreq] at hn'
          cases hn'
          simpa using hg
  · -- Release
    rename_i hm
    exact served_of_release (Or.inl hm) hs
  · -- Decline
    rename_i hm
    exact served_of_release (Or.inr hm) hs
  · rename_i hd hq hr hc
    cases hs
    exact .other hd hq (by rintro (h1 | h1) <;> contradiction)

theorem serveDHCP_offer (sel : SelectOrderOrAll) {h : Handler} {c : Choices} {m : Message} {n : ℤ}
    (hm : m.msgType = .discover) (hd : discoverLease h c m.nic = .ok (some n)) :
    serveDHCP sel h c m = .ok (h, some (offerReply sel h m n)) := by
  simp [serveDHCP, hm, hd]

theorem serveDHCP_ack (sel : SelectOrderOrAll) (c : Choices) {h : Handler} {m : Message} {n : ℤ}
    (hm : m.msgType = .request) (hus : m.forUs h.ip = true) (hreq : requestLease h m = some n)
    (hg : grantable h.leases m.nic n = true) :
    serveDHCP sel h c m = .ok (h.grant n m.nic c.now, some (ackReply sel h m)) := by
  simp [serveDHCP, hm, hus, hreq, hg]

theorem serveDHCP_panic (sel : SelectOrderOrAll) {h : Handler} {c : Choices} {m : Message}
    {err : String} (hm : m.msgType = .discover) (hd : discoverLease h c m.nic = .error err) :
    serveDHCP sel h c m = .error err := by
  simp [serveDHCP, hm, hd]

/-- A panic can only come from a `Discover`. -/
theorem serveDHCP_error {sel : SelectOrderOrAll} {h : Handler} {c : Choices} {m : Message}
    {err : String} (hs : serveDHCP sel h c m = .error err) :
    m.msgType = .discover ∧ discoverLease h c m.nic = .error err := by
  rw [serveDHCP] at hs
  split at hs
  · rename_i hm
    split at hs
    · rename_i err' hd
      cases hs
      exact ⟨hm, hd⟩
    · cases hs
    · cases hs
  · split at hs
    · cases hs
    · split at hs
      · cases hs
      · split at hs <;> cases hs
  · split at hs <;> cases hs
  · split at hs <;> cases hs
  · cases hs

/-- A call changes nothing of the handler but the lease table. -/
theorem Served.frame {sel : SelectOrderOrAll} {h h' : Handler} {c : Choices} {m : Message}
    {r : Option Reply} (hs : Served sel h c m h' r) :
    h'.ip = h.ip ∧ h'.options = h.options ∧ h'.start = h.start ∧ h'.leaseRange = h.leaseRange ∧
      h'.leaseDuration = h.leaseDuration := by
  cases hs <;> exact ⟨rfl, rfl, rfl, rfl, rfl⟩

end Dhcp
