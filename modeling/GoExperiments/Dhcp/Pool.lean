import GoExperiments.Dhcp.Leases

/-!
# The address pool

`dhcpv4.New` checks every argument but the size of the pool.  This file says what
that costs: which pools keep the server from panicking and its addresses inside
the pool.

* `new_ok` — what a configuration accepted by the constructor looks like.
* `PoolSafe` — the server is up, every lease number is in the pool, every address
  offered or acknowledged lies in `[start, start + leaseRange)`, and no offer of a
  number wraps around the end of the address space.
* `poolSafe_run` — a nonempty pool that ends inside the address space is safe in
  every run.
* `pool_safe_iff` — and no other pool is.
-/

namespace Dhcp

open Runs

variable {sel : SelectOrderOrAll} {s s' : Server} {e : Event}

/-! ## What the constructor accepts -/

theorem parse4_ok {host : Host} {t err : String} {ip : IPv4} (h : parse4 host t err = .ok ip) :
    (host.parseIP t).bind to4 = some ip := by
  rw [parse4] at h
  split at h
  · rename_i v hv
    cases h
    exact hv
  · cases h

/-- A handler the constructor returns has the start address and the size it was
asked for, whatever the size, and an empty lease table. -/
theorem new_ok {host : Host} {a : NewArgs} {h : Handler} (hnew : new host a = .ok h) :
    ∃ ctx : DhcpCtx, h = newDHCPv4Handler ctx ∧ ctx.numLeaseMax = a.max ∧
      (host.parseIP a.start).bind to4 = some ctx.startIP ∧ 0 < a.leaseSec := by
  simp only [new, bind, Except.bind, pure, Except.pure, throw, throwThe,
    MonadExceptOf.throw] at hnew
  split at hnew
  · cases hnew
  split at hnew
  · cases hnew
  rename_i si hsi
  split at hnew
  · cases hnew
  split at hnew
  · cases hnew
  split at hnew
  · cases hnew
  by_cases hsec : a.leaseSec ≤ 0
  · rw [if_pos hsec] at hnew
    cases hnew
  rw [if_neg hsec] at hnew
  split at hnew
  · cases hnew
  · cases hnew
    exact ⟨_, rfl, rfl, parse4_ok hsi, not_le.1 hsec⟩

/-! ## Safe pools -/

/-- The address lies in the pool, as an integer. -/
def Handler.HasAddr (h : Handler) (a : IPv4) : Prop :=
  (h.start.toNat : ℤ) ≤ a.toNat ∧ (a.toNat : ℤ) < h.start.toNat + h.leaseRange

/-- The server is up, its lease numbers are in the pool, so is every address it
has offered or acknowledged, and the address it would offer for a number is that
many addresses after `start`, without wrap-around. -/
structure PoolSafe (s : Server) : Prop where
  alive : s.alive = true
  keys : ∀ n l, s.handler.leases.lookup n = some l → 0 ≤ n ∧ n < s.handler.leaseRange
  replies : ∀ e r a, (e, Except.ok (some r)) ∈ s.log → r.msgType = .offer ∨ r.msgType = .ack →
    r.yIAddr = some a → s.handler.HasAddr a
  offers : ∀ c nic n, GoMap.IsOrder c.order s.handler.leases →
    discoverLease s.handler c nic = .ok (some n) →
    ((ipAdd s.handler.start n).toNat : ℤ) = s.handler.start.toNat + n

/-- The number of an offer is in the pool. -/
theorem discoverLease_inPool {h : Handler} {c : Choices} {nic : String} {n : ℤ} (hin : InPool h)
    (ho : GoMap.IsOrder c.order h.leases) (hd : discoverLease h c nic = .ok (some n)) :
    0 ≤ n ∧ n < h.leaseRange := by
  rcases discoverLease_spec ho hd with ⟨l, hl, -⟩ | ⟨-, hn0, hn, -⟩
  · exact ⟨(hin n l hl).1, (hin n l hl).2.1⟩
  · exact ⟨hn0, hn⟩

/-- An offer from a pool inside the address space does not wrap. -/
theorem offer_hasAddr {h : Handler} {c : Choices} {nic : String} {n : ℤ}
    (hend : (h.start.toNat : ℤ) + h.leaseRange ≤ 2 ^ 32) (hin : InPool h)
    (ho : GoMap.IsOrder c.order h.leases) (hd : discoverLease h c nic = .ok (some n)) :
    ((ipAdd h.start n).toNat : ℤ) = h.start.toNat + n ∧ h.HasAddr (ipAdd h.start n) := by
  obtain ⟨hn0, hn⟩ := discoverLease_inPool hin ho hd
  have hval := toNat_ipAdd hn0 (by omega : (h.start.toNat : ℤ) + n < 2 ^ 32)
  exact ⟨hval, by rw [hval]; omega, by rw [hval]; omega⟩

/-- Every address in a reply is in the pool. -/
theorem served_hasAddr {h h' : Handler} {c : Choices} {m : Message} {r : Reply} {a : IPv4}
    (hend : (h.start.toNat : ℤ) + h.leaseRange ≤ 2 ^ 32) (hin : InPool h)
    (ho : GoMap.IsOrder c.order h.leases) (hs : Served sel h c m h' (some r))
    (ha : r.yIAddr = some a) : h.HasAddr a := by
  cases hs with
  | @offer n _ hd =>
      have hia : ipAdd h.start n = a := by simpa [offerReply] using ha
      rw [← hia]
      exact (offer_hasAddr hend hin ho hd).2
  | nak => cases ha
  | @ack n _ _ hreq _ =>
      obtain ⟨ip, hip, -, hval, hn0, hn⟩ := requestLease_eq_some.1 hreq
      have hia : ip = a := by simpa [ackReply, hip] using ha
      rw [← hia]
      exact ⟨by omega, by omega⟩

/-- The invariant of a server with a good pool. -/
structure GoodPool (h : Handler) (s : Server) : Prop where
  config : SameConfig h s.handler
  inPool : InPool s.handler
  safe : PoolSafe s

theorem goodPool_step {h : Handler} (hpos : 0 < h.leaseRange)
    (hend : (h.start.toNat : ℤ) + h.leaseRange ≤ 2 ^ 32) (hg : GoodPool h s)
    (hs : step sel s e = some s') : GoodPool h s' := by
  obtain ⟨-, -, hstart, hrange, -⟩ := hg.config
  obtain ⟨-, -, hstart', hrange', -⟩ := sameConfig_step hs
  have hconf : SameConfig h s'.handler := hg.config.trans (sameConfig_step hs)
  have hin' : InPool s'.handler := inPool_step hg.inPool hs
  have hend' : (s.handler.start.toNat : ℤ) + s.handler.leaseRange ≤ 2 ^ 32 := by
    rw [hstart, hrange]; exact hend
  obtain ⟨ho, ⟨r, hr, halive, hlog⟩ | ⟨err, herr, -⟩⟩ := step_cases hs
  · refine ⟨hconf, hin', halive, fun n l hl => ⟨(hin' n l hl).1, (hin' n l hl).2.1⟩, ?_, ?_⟩
    · intro e' r' a hmem hmt ha
      rw [Handler.HasAddr, hstart', hrange']
      rw [hlog] at hmem
      rcases List.mem_cons.1 hmem with heq | hmem
      · cases heq
        exact served_hasAddr hend' hg.inPool ho hr ha
      · exact hg.safe.replies e' r' a hmem hmt ha
    · intro c nic n ho' hd
      exact (offer_hasAddr (by rw [hstart', hrange']; exact hend') hin' ho' hd).1
  · -- a `Discover` panics only on an empty pool
    exact absurd (serveDHCP_error herr).2
      (discoverLease_ne_error (by rw [hrange]; exact hpos) _ _ _)

/-- **A good pool is safe** in every run. -/
theorem poolSafe_run {ctx : DhcpCtx} {t₀ : ℤ} {evs : List Event} (hpos : 0 < ctx.numLeaseMax)
    (hend : (ctx.startIP.toNat : ℤ) + ctx.numLeaseMax ≤ 2 ^ 32)
    (hrun : run (step sel) (boot (newDHCPv4Handler ctx) t₀) evs = some s) : PoolSafe s := by
  refine (run_invariant (GoodPool (newDHCPv4Handler ctx)) ?_
    (fun _ _ _ ht hstep => goodPool_step hpos hend ht hstep) hrun).safe
  refine ⟨⟨rfl, rfl, rfl, rfl, rfl⟩, inPool_new ctx, rfl, ?_, ?_, ?_⟩
  · exact fun n l hl => ⟨(inPool_new ctx n l hl).1, (inPool_new ctx n l hl).2.1⟩
  · intro e r a hmem
    exact absurd hmem List.not_mem_nil
  · exact fun c nic n ho hd => (offer_hasAddr hend (inPool_new ctx) ho hd).1

theorem not_holds_new (ctx : DhcpCtx) (nic : String) :
    ¬ Holds (newDHCPv4Handler ctx).leases nic := by
  rintro ⟨n, l, hl, -⟩
  rw [newDHCPv4Handler, Finmap.lookup_empty] at hl
  cases hl

/-- The first `Discover` to a server with an empty pool ends it. -/
theorem panics_of_empty (sel : SelectOrderOrAll) {ctx : DhcpCtx} (t₀ : ℤ)
    (hle : ctx.numLeaseMax ≤ 0) :
    ∃ d s, run (step sel) (boot (newDHCPv4Handler ctx) t₀) [d] = some s ∧ s.alive = false := by
  let d : Event := ⟨⟨t₀, 0, []⟩, discoverOf []⟩
  have hpanic : discoverLease (newDHCPv4Handler ctx) d.choices d.message.nic
      = .error "invalid argument to Intn" := discoverLease_panic rfl (not_holds_new ctx _) hle
  have hstep : step sel (boot (newDHCPv4Handler ctx) t₀) d = some _ :=
    step_of_error rfl (le_refl _) rfl (serveDHCP_panic sel rfl hpanic)
  exact ⟨d, _, by rw [run_cons, hstep]; rfl, rfl⟩

/-- In a pool that runs over the end of the address space, the draw may fall on the
first number past the end, and the offer of it wraps. -/
theorem wraps_of_overrun {ctx : DhcpCtx} (nic : String)
    (hover : 2 ^ 32 < (ctx.startIP.toNat : ℤ) + ctx.numLeaseMax) :
    ∃ c n, GoMap.IsOrder c.order (newDHCPv4Handler ctx).leases ∧
      discoverLease (newDHCPv4Handler ctx) c nic = .ok (some n) ∧
      ((ipAdd ctx.startIP n).toNat : ℤ) ≠ ctx.startIP.toNat + n := by
  have hlt := ctx.startIP.isLt
  set n : ℤ := 2 ^ 32 - (ctx.startIP.toNat : ℤ) with hn
  have hrange : n < (newDHCPv4Handler ctx).leaseRange := by
    change n < ctx.numLeaseMax
    omega
  have hfree : isFree (newDHCPv4Handler ctx).leases 0 n = true :=
    isFree_of_lookup_eq_none (by rw [newDHCPv4Handler, Finmap.lookup_empty]) 0
  refine ⟨⟨0, n.toNat, []⟩, n, rfl, ?_, ?_⟩
  · exact discoverLease_free rfl (not_holds_new ctx nic) (by omega) hrange
      (Int.toNat_of_nonneg (by omega)) hfree
  · have hbound := (ipAdd ctx.startIP n).isLt
    omega

/-- **Exactly the nonempty pools inside the address space are safe.**  For every
configuration the constructor accepts: every run of the server is free of panics
and keeps to the pool if and only if the pool is not empty and does not run over
the end of the address space. -/
theorem pool_safe_iff (sel : SelectOrderOrAll) (host : Host) (a : NewArgs) (h : Handler)
    (hnew : new host a = .ok h) (t₀ : ℤ) :
    (∀ evs s, run (step sel) (boot h t₀) evs = some s → PoolSafe s) ↔
      (0 < a.max ∧ (h.start.toNat : ℤ) + a.max ≤ 2 ^ 32) := by
  obtain ⟨ctx, rfl, hmax, -, -⟩ := new_ok hnew
  rw [← hmax]
  constructor
  · intro hsafe
    refine ⟨?_, ?_⟩
    · by_contra hle
      obtain ⟨d, s, hrun, hdead⟩ := panics_of_empty sel t₀ (not_lt.1 hle)
      rw [(hsafe [d] s hrun).alive] at hdead
      cases hdead
    · by_contra hover
      obtain ⟨c, n, ho, hdisc, hwrap⟩ := wraps_of_overrun "" (not_le.1 hover)
      exact hwrap ((hsafe [] _ rfl).offers c "" n ho hdisc)
  · rintro ⟨hpos, hend⟩ evs s hrun
    exact poolSafe_run hpos hend hrun

/-! ### The configuration of the README -/

/-- A machine with the address of the README's server; `net.ParseIP` on the
addresses of its command line. -/
def readmeHost : Host where
  interfaces := .ok [⟨true, true, .ok [[127, 0, 0, 1]]⟩, ⟨true, false, .ok [[10, 10, 200, 5]]⟩]
  parseIP := fun t =>
    if t = "10.10.200.10" then some (v4InV6 ++ [10, 10, 200, 10])
    else if t = "10.10.200.1" then some (v4InV6 ++ [10, 10, 200, 1])
    else if t = "10.10.200.2" then some (v4InV6 ++ [10, 10, 200, 2])
    else if t = "255.255.255.0" then some (v4InV6 ++ [255, 255, 255, 0])
    else none
  isLetter := Char.isAlpha
  isNumber := Char.isDigit

/-- The command line of the README, with a pool of `max` addresses. -/
def readmeArgs (max : ℤ) : NewArgs where
  start := "10.10.200.10"
  router := "10.10.200.1"
  netmask := "255.255.255.0"
  dns := "10.10.200.2"
  max := max
  leaseSec := 7200
  domainName := "foobar.local"

/-- The README's pool of ninety addresses is safe. -/
theorem pool_safe_readme :
    new readmeHost (readmeArgs 90) = .ok (newDHCPv4Handler (readmeCtx 90)) ∧
      ∀ evs s, run (step selectOrderOrAll) (boot (newDHCPv4Handler (readmeCtx 90)) 0) evs = some s →
        PoolSafe s := by
  have hnew : new readmeHost (readmeArgs 90) = .ok (newDHCPv4Handler (readmeCtx 90)) := by
    decide +kernel
  exact ⟨hnew, (pool_safe_iff selectOrderOrAll readmeHost (readmeArgs 90) _ hnew 0).2
    ⟨by decide, by decide +kernel⟩⟩

/-- **A pool of no address is accepted and panics.**  The constructor takes
`max = 0`, and the first `Discover` ends the server. -/
theorem empty_pool_panics :
    new readmeHost (readmeArgs 0) = .ok (newDHCPv4Handler (readmeCtx 0)) ∧
      ∃ s, run (step selectOrderOrAll) (boot (newDHCPv4Handler (readmeCtx 0)) 0)
        [⟨⟨0, 0, []⟩, discoverOf [1]⟩] = some s ∧ ¬ PoolSafe s := by
  refine ⟨by decide +kernel, ⟨newDHCPv4Handler (readmeCtx 0), 0, false,
    [(⟨⟨0, 0, []⟩, discoverOf [1]⟩, .error "invalid argument to Intn")]⟩, by decide +kernel, ?_⟩
  intro hsafe
  have halive := hsafe.alive
  cases halive

end Dhcp
