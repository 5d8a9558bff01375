import GoExperiments.Dhcp.Leases

/-!
# Offers

`Discover` and `Request` decide by different tests whether a lease number may be
handed out: the scan behind `Discover` takes a number whose lease has expired,
`Request` only one that has no lease or a lease of the same client.  This file
says exactly when the two agree.

* `OfferHonoured` — an offer is good for the request that follows it.
* `offerHonoured_of`, `grant_of_offerHonoured` — offers are honoured when every
  number `Discover` may pick is grantable, and, since the draw may fall on any
  free number, only then.
* `offer_honoured_iff` — after any run, in terms of the lease table and the
  configuration.
* `expired_offer_refused` — the shortest run that ends in an offer that is
  refused.
-/

namespace Dhcp

open Runs Go

variable {sel : SelectOrderOrAll} {s s' : Server} {e : Event}

/-- The reply to the newest message. -/
def Server.lastReply (s : Server) : Option Reply :=
  match s.log with
  | (_, .ok r) :: _ => r
  | _ => none

/-- If a `Discover` of the client at time `now` is answered with an offer, then a
`Request` of the same client for the offered address that is the next message
handled is acknowledged, and the lease is recorded as the client's. -/
def OfferHonoured (sel : SelectOrderOrAll) (s : Server) (now : ℤ) (chaddr : Bytes) : Prop :=
  ∀ (d q : Event) (s₁ s₂ : Server) (r : Reply) (a : IPv4),
    d.message.msgType = .discover → d.message.nic = hardwareAddrString chaddr →
    d.choices.now = now → step sel s d = some s₁ →
    s₁.lastReply = some r → r.msgType = .offer → r.yIAddr = some a →
    q.message.msgType = .request → q.message.nic = hardwareAddrString chaddr →
    q.message.reqIP = IPv4.bytes a → q.message.forUs s.handler.ip = true →
    step sel s₁ q = some s₂ →
    ∃ r', s₂.lastReply = some r' ∧ r'.msgType = .ack ∧ r'.yIAddr = some a ∧
      HeldBy s₂.handler.leases (ipRange s.handler.start a - 1) (hardwareAddrString chaddr)

@[simp] theorem reqIP_requestOf (chaddr : Bytes) (a : IPv4) :
    (requestOf chaddr a).reqIP = IPv4.bytes a := by
  rw [Message.reqIP, requestOf, Finmap.lookup_insert]
  rfl

@[simp] theorem forUs_requestOf (chaddr ip : Bytes) (a : IPv4) :
    (requestOf chaddr a).forUs ip = true := by
  have hnone : (requestOf chaddr a).options.lookup optionServerIdentifier = none := by
    rw [requestOf, Finmap.lookup_insert_of_ne _ (by decide), Finmap.lookup_empty]
  rw [Message.forUs, hnone]

/-- What an answered `Discover` leaves behind. -/
theorem offered_spec {r : Reply} (hm : e.message.msgType = .discover)
    (hs : step sel s e = some s') (hr : s'.lastReply = some r) :
    s'.handler = s.handler ∧ ∃ n, discoverLease s.handler e.choices e.message.nic = .ok (some n) ∧
      r = offerReply sel s.handler e.message n := by
  obtain ⟨-, ⟨r', hserved, -, hlog⟩ | ⟨err, -, -, -, hlog⟩⟩ := step_cases hs
  · rw [Server.lastReply, hlog] at hr
    simp only at hr
    subst hr
    have hne : ∀ {t : MessageType}, t ≠ .discover → e.message.msgType ≠ t :=
      fun hne heq => hne (heq.symm.trans hm)
    generalize hh : s'.handler = h' at hserved
    cases hserved with
    | offer _ hd => exact ⟨rfl, _, hd, rfl⟩
    | nak hq => exact absurd hq (hne (by simp))
    | ack hq => exact absurd hq (hne (by simp))
  · rw [Server.lastReply, hlog] at hr
    cases hr

/-- The offer of a number whose address is not wrapped and not zero is good, if
no other client has a lease of that number. -/
theorem request_of_offered {h : Handler} {m : Message} {n : ℤ} (hn0 : 0 ≤ n)
    (hn : n < h.leaseRange) (hpos : 0 < (h.start.toNat : ℤ) + n)
    (hlt : (h.start.toNat : ℤ) + n < 2 ^ 32) (hreq : m.reqIP = IPv4.bytes (ipAdd h.start n)) :
    requestLease h m = some n := by
  have hval := toNat_ipAdd hn0 hlt
  refine requestLease_eq_some.2 ⟨ipAdd h.start n, hreq, ?_, hval, hn0, hn⟩
  intro hzero
  rw [hzero] at hval
  simp at hval
  omega

/-- When every number a `Discover` may be answered with is good, offers are
honoured. -/
theorem offerHonoured_of {now : ℤ} {chaddr : Bytes}
    (hgood : ∀ (c : Choices) (n : ℤ), c.now = now → GoMap.IsOrder c.order s.handler.leases →
      discoverLease s.handler c (hardwareAddrString chaddr) = .ok (some n) →
      0 ≤ n ∧ n < s.handler.leaseRange ∧ 0 < (s.handler.start.toNat : ℤ) + n ∧
        (s.handler.start.toNat : ℤ) + n < 2 ^ 32 ∧
        grantable s.handler.leases (hardwareAddrString chaddr) n = true) :
    OfferHonoured sel s now chaddr := by
  intro d q s₁ s₂ r a hdm hdn hdnow hs₁ hr hroffer hra hqm hqn hqreq hqus hs₂
  obtain ⟨hh₁, n, hdisc, rfl⟩ := offered_spec hdm hs₁ hr
  rw [hdn] at hdisc
  obtain ⟨hn0, hn, hpos, hlt, hg⟩ := hgood d.choices n hdnow (step_cases hs₁).1 hdisc
  have ha : a = ipAdd s.handler.start n := by
    simpa [offerReply] using hra.symm
  rw [ha] at hqreq
  have hreq : requestLease s₁.handler q.message = some n := by
    rw [hh₁]; exact request_of_offered hn0 hn hpos hlt hqreq
  have hserve := serveDHCP_ack sel q.choices hqm (by rw [hh₁]; exact hqus) hreq
    (by rw [hh₁, hqn]; exact hg)
  have hs₂' := step_eq_of_ok hs₂ hserve
  have hnum : ipRange s.handler.start a - 1 = n := by rw [ha]; exact ipRange_ipAdd hn0 hlt
  subst hs₂'
  refine ⟨ackReply sel s₁.handler q.message, rfl, rfl, ?_, ?_⟩
  · rw [ha, ackReply, hqreq, bigEndianUint32_bytes]
  · rw [hnum]
    refine ⟨⟨q.message.nic, q.choices.now + s₁.handler.leaseDuration⟩, ?_, hqn⟩
    rw [lookup_grant, if_pos rfl]

/-- When offers are honoured, every free number of the pool can be granted to a
client without a lease: the draw of a `Discover` may fall on any of them. -/
theorem grant_of_offerHonoured {now n : ℤ} {chaddr : Bytes} (halive : s.alive = true)
    (hclock : s.clock ≤ now) (hhon : OfferHonoured sel s now chaddr)
    (hnone : ¬ Holds s.handler.leases (hardwareAddrString chaddr)) (hn0 : 0 ≤ n)
    (hn : n < s.handler.leaseRange) (hfree : isFree s.handler.leases now n = true) :
    ∃ k, ipAdd s.handler.start n ≠ 0 ∧
      ((ipAdd s.handler.start n).toNat : ℤ) = s.handler.start.toNat + k ∧
      grantable s.handler.leases (hardwareAddrString chaddr) k = true := by
  obtain ⟨o, ho⟩ := GoMap.exists_isOrder s.handler.leases
  set a := ipAdd s.handler.start n with ha
  let d : Event := ⟨⟨now, n.toNat, o⟩, discoverOf chaddr⟩
  let q : Event := ⟨⟨now, 0, o⟩, requestOf chaddr a⟩
  have hdisc : discoverLease s.handler d.choices d.message.nic = .ok (some n) :=
    discoverLease_free ho hnone hn0 hn (Int.toNat_of_nonneg hn0) hfree
  have hs₁ : step sel s d = some _ := step_of_ok halive hclock ho (serveDHCP_offer sel rfl hdisc)
  -- the request is handled in one way or another, and the offer is honoured
  obtain ⟨s₂, hs₂⟩ : ∃ s₂, step sel ⟨s.handler, now, true,
      (d, .ok (some (offerReply sel s.handler d.message n))) :: s.log⟩ q = some s₂ := by
    rw [step, if_pos ⟨rfl, le_refl _, ho⟩]
    cases serveDHCP sel s.handler q.choices q.message with
    | ok x => exact ⟨_, rfl⟩
    | error err => exact ⟨_, rfl⟩
  obtain ⟨r', hr', hack, hya, -⟩ := hhon d q _ s₂ _ a rfl rfl rfl hs₁ rfl rfl rfl rfl rfl
    (reqIP_requestOf chaddr a) (forUs_requestOf _ _ _) hs₂
  obtain ⟨-, ⟨r'', hserved, -, hlog⟩ | ⟨err, -, -, -, hlog⟩⟩ := step_cases hs₂
  · rw [Server.lastReply, hlog] at hr'
    simp only at hr'
    subst hr'
    obtain ⟨hreq, hg, -⟩ := heldBy_of_acked hserved hack hya
    obtain ⟨ip, hip, hne, hval, -, -⟩ := requestLease_eq_some.1 hreq
    have hia : a = ip := bytes_inj.1 ((reqIP_requestOf chaddr a).symm.trans hip)
    subst hia
    exact ⟨_, hne, hval, hg⟩
  · rw [Server.lastReply, hlog] at hr'
    cases hr'

/-! ## When offers are honoured -/

/-- When offers are honoured, no lease has expired: an expired lease of another
client would be offered and refused. -/
theorem unexpired_of_offerHonoured {now : ℤ} {chaddr : Bytes} (hpool : InPool s.handler)
    (halive : s.alive = true) (hclock : s.clock ≤ now) (hhon : OfferHonoured sel s now chaddr)
    (hnone : ¬ Holds s.handler.leases (hardwareAddrString chaddr)) {n : ℤ} {l : Lease}
    (hl : s.handler.leases.lookup n = some l) : now ≤ l.expiry := by
  by_contra hexp
  obtain ⟨hn0, hn, hpos, hlt⟩ := hpool n l hl
  have hfree := isFree_of_expired hl (not_le.1 hexp)
  obtain ⟨k, -, hval, hg⟩ := grant_of_offerHonoured halive hclock hhon hnone hn0 hn hfree
  rw [toNat_ipAdd hn0 hlt] at hval
  have hkn : k = n := by omega
  rw [hkn] at hg
  exact hnone ⟨n, l, hl, grantable_iff.1 hg l hl⟩

/-- When offers are honoured, no number of the pool stands for `0.0.0.0`: such a
number is never leased, so it would be offered. -/
theorem nonzero_of_offerHonoured {now : ℤ} {chaddr : Bytes} (hpool : InPool s.handler)
    (halive : s.alive = true) (hclock : s.clock ≤ now) (hhon : OfferHonoured sel s now chaddr)
    (hnone : ¬ Holds s.handler.leases (hardwareAddrString chaddr)) {n : ℤ} (hn0 : 0 ≤ n)
    (hn : n < s.handler.leaseRange) : ((s.handler.start.toNat : ℤ) + n) % 2 ^ 32 ≠ 0 := by
  intro hzero
  have hvac : s.handler.leases.lookup n = none := by
    refine Option.eq_none_iff_forall_ne_some.2 fun l hl => ?_
    obtain ⟨-, -, hpos, hlt⟩ := hpool n l hl
    omega
  have hfree := isFree_of_lookup_eq_none hvac now
  obtain ⟨k, hne, -, -⟩ := grant_of_offerHonoured halive hclock hhon hnone hn0 hn hfree
  exact hne (ipAdd_eq_zero hzero)

/-- Without expired leases, every number a `Discover` may pick from a pool inside the
address space is good. -/
theorem good_of_unexpired {h : Handler} {c : Choices} {nic : String} {n : ℤ} (hpool : InPool h)
    (hend : ¬ Holds h.leases nic → 0 < h.leaseRange →
      (∀ n l, h.leases.lookup n = some l → c.now ≤ l.expiry) ∧ h.start ≠ 0 ∧
        (h.start.toNat : ℤ) + h.leaseRange ≤ 2 ^ 32)
    (ho : GoMap.IsOrder c.order h.leases) (hdisc : discoverLease h c nic = .ok (some n)) :
    0 ≤ n ∧ n < h.leaseRange ∧ 0 < (h.start.toNat : ℤ) + n ∧ (h.start.toNat : ℤ) + n < 2 ^ 32 ∧
      grantable h.leases nic n = true := by
  rcases discoverLease_spec ho hdisc with ⟨l, hl, hnic⟩ | ⟨hnone, hn0, hn, hfree⟩
  · -- a previous lease of the client
    obtain ⟨hn0, hn, hpos, hlt⟩ := hpool n l hl
    refine ⟨hn0, hn, hpos, hlt, grantable_iff.2 fun l' hl' => ?_⟩
    rw [hl] at hl'
    cases hl'
    exact hnic
  · -- a free number, and so one without a lease
    obtain ⟨hexp, hne, hover⟩ := hend hnone (by omega)
    have hpos := toNat_pos hne
    refine ⟨hn0, hn, by omega, by omega, grantable_iff.2 fun l hl => ?_⟩
    have hle := hexp n l hl
    simp only [isFree, hl, decide_eq_true_eq] at hfree
    omega

/-- **When offers are honoured.**  After any run, the offers made to a client at
time `now` are honoured, whatever the draw and the order of the map, exactly when
the client holds a lease already, or the pool is empty (so that nothing is
offered), or no lease has expired, `start` is not `0.0.0.0` and the pool does not
run over the end of the address space. -/
theorem offer_honoured_iff (sel : SelectOrderOrAll) (ctx : DhcpCtx) (t₀ : ℤ) (evs : List Event)
    (s : Server) (hrun : run (step sel) (boot (newDHCPv4Handler ctx) t₀) evs = some s)
    (halive : s.alive = true) (now : ℤ) (hclock : s.clock ≤ now) (chaddr : Bytes) :
    OfferHonoured sel s now chaddr ↔
      (Holds s.handler.leases (hardwareAddrString chaddr) ∨ ctx.numLeaseMax ≤ 0 ∨
        ((∀ n l, s.handler.leases.lookup n = some l → now ≤ l.expiry) ∧ ctx.startIP ≠ 0 ∧
          (ctx.startIP.toNat : ℤ) + ctx.numLeaseMax ≤ 2 ^ 32)) := by
  have hpool : InPool s.handler := inPool_run hrun
  obtain ⟨-, -, hstart, hrange, -⟩ := sameConfig_run hrun
  have hstart' : s.handler.start = ctx.startIP := hstart
  have hrange' : s.handler.leaseRange = ctx.numLeaseMax := hrange
  constructor
  · intro hhon
    by_cases hholds : Holds s.handler.leases (hardwareAddrString chaddr)
    · exact Or.inl hholds
    by_cases hmax : ctx.numLeaseMax ≤ 0
    · exact Or.inr (Or.inl hmax)
    have hnonzero : ∀ n : ℤ, 0 ≤ n → n < ctx.numLeaseMax →
        ((ctx.startIP.toNat : ℤ) + n) % 2 ^ 32 ≠ 0 := by
      intro n hn0 hn
      rw [← hstart']
      exact nonzero_of_offerHonoured hpool halive hclock hhon hholds hn0 (by rwa [hrange'])
    refine Or.inr (Or.inr ⟨?_, ?_, ?_⟩)
    · exact fun n l hl => unexpired_of_offerHonoured hpool halive hclock hhon hholds hl
    · -- number `0` of a pool at `0.0.0.0`
      intro hzero
      exact hnonzero 0 le_rfl (by omega) (by rw [hzero]; rfl)
    · -- the first number past the end of the address space
      by_contra hover
      have hlt := ctx.startIP.isLt
      exact hnonzero (2 ^ 32 - ctx.startIP.toNat) (by omega) (by omega) (by omega)
  · intro hcond
    refine offerHonoured_of fun c n hnow ho hdisc => good_of_unexpired hpool ?_ ho hdisc
    intro hnone hpos
    rw [hnow, hstart', hrange']
    rw [hrange'] at hpos
    rcases hcond with hholds | hmax | hgood
    · exact absurd hholds hnone
    · omega
    · exact hgood

/-- The client that holds the only address of the pool is offered it again, even
after the lease has expired, and gets it. -/
theorem offer_honoured_holder :
    let h := newDHCPv4Handler (readmeCtx 1)
    let e : Event := ⟨⟨0, 0, []⟩, requestOf [1] 0x0a0ac80a⟩
    let s : Server := ⟨h.grant 0 "01" 0, 0, true,
      [(e, .ok (some (ackReply selectOrderOrAll h e.message)))]⟩
    run (step selectOrderOrAll) (boot h 0) [e] = some s ∧
      OfferHonoured selectOrderOrAll s (7200 * second + 1) [1] := by
  intro h e s
  have hrun : run (step selectOrderOrAll) (boot h 0) [e] = some s := by decide +kernel
  refine ⟨hrun, (offer_honoured_iff selectOrderOrAll (readmeCtx 1) 0 [e] s hrun rfl _
    (by decide) [1]).2 (Or.inl ⟨0, ⟨"01", 7200 * second⟩, by decide +kernel, by decide +kernel⟩)⟩

/-- **An offer that is refused.**  A pool of one address, leased to client `01` at
time `0`.  When the lease has expired, client `02` is offered the address, asks
for it, and gets a NAK. -/
theorem expired_offer_refused :
    let h := newDHCPv4Handler (readmeCtx 1)
    let e : Event := ⟨⟨0, 0, []⟩, requestOf [1] 0x0a0ac80a⟩
    let s : Server := ⟨h.grant 0 "01" 0, 0, true,
      [(e, .ok (some (ackReply selectOrderOrAll h e.message)))]⟩
    run (step selectOrderOrAll) (boot h 0) [e] = some s ∧
      ¬ OfferHonoured selectOrderOrAll s (7200 * second + 1) [2] := by
  intro h e s
  refine ⟨by decide +kernel, fun hhon => ?_⟩
  let d : Event := ⟨⟨7200 * second + 1, 0, [⟨0, ⟨"01", 7200 * second⟩⟩]⟩, discoverOf [2]⟩
  let q : Event := ⟨⟨7200 * second + 1, 0, [⟨0, ⟨"01", 7200 * second⟩⟩]⟩, requestOf [2] 0x0a0ac80a⟩
  let offer := offerReply selectOrderOrAll s.handler d.message 0
  let s₁ : Server := ⟨s.handler, 7200 * second + 1, true, (d, .ok (some offer)) :: s.log⟩
  let s₂ : Server := ⟨s.handler, 7200 * second + 1, true,
    (q, .ok (some (nakReply s.handler q.message))) :: s₁.log⟩
  have hs₁ : step selectOrderOrAll s d = some s₁ := by decide +kernel
  have hs₂ : step selectOrderOrAll s₁ q = some s₂ := by decide +kernel
  obtain ⟨r', hr', hack, -⟩ := hhon d q s₁ s₂ offer 0x0a0ac80a rfl rfl rfl hs₁ rfl rfl
    (by decide +kernel) rfl rfl (by decide +kernel) (by decide +kernel) hs₂
  cases hr'
  cases hack

end Dhcp
