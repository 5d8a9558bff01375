import GoExperiments.Dhcp.Leases

/-!
# A client keeps its address

A client that was acknowledged one address, and no other, and has not released it since, is
offered that address by every later `Discover` and acknowledged it by every later `Request`
for it.  Neither the expiry of the lease nor what other clients do in between matters.

* `Backed` — the invariant: every lease in the table goes back to an acknowledgement in the
  log, of its number and to its client.  With `Held` it makes the address the only lease of
  the client.
* `alive_run` — a server with a pool does not panic.
* `sticky_address` — the main result, about any state of any run.
-/

namespace Dhcp

open Runs Go

variable {sel : SelectOrderOrAll} {s s' : Server} {e : Event}

/-! ## Where a lease comes from -/

/-- Every lease of the table was acknowledged to its client. -/
def Backed (s : Server) : Prop :=
  ∀ n l, s.handler.leases.lookup n = some l →
    ∃ x ∈ s.log, ∃ a, Acked x a ∧ x.1.message.nic = l.nic ∧ ipRange s.handler.start a - 1 = n

/-- A lease a call leaves in the table was there before, or the call acknowledged it. -/
theorem lookup_served {h h' : Handler} {c : Choices} {m : Message} {r : Option Reply}
    (hs : Served sel h c m h' r) {n : ℤ} {l : Lease} (hl : h'.leases.lookup n = some l) :
    h.leases.lookup n = some l ∨ ∃ a, r = some (ackReply sel h m) ∧
      (ackReply sel h m).yIAddr = some a ∧ m.nic = l.nic ∧ ipRange h.start a - 1 = n := by
  cases hs with
  | @ack k hm hus hreq hg =>
      rw [lookup_grant] at hl
      split at hl
      · rename_i hk
        cases hl
        obtain ⟨ip, hip, -, hval, -⟩ := requestLease_eq_some.1 hreq
        refine Or.inr ⟨ip, rfl, ?_, rfl, ?_⟩
        · rw [ackReply, hip, bigEndianUint32_bytes]
        · rw [ipRange]
          omega
      · exact Or.inl hl
  | release hm hi =>
      rw [lookup_delete] at hl
      split at hl
      · cases hl
      · exact Or.inl hl
  | _ => exact Or.inl hl

theorem backed_step (hb : Backed s) (hs : step sel s e = some s') : Backed s' := by
  have hstart : s'.handler.start = s.handler.start := (sameConfig_step hs).2.2.1
  intro n l hl
  rw [hstart]
  obtain ⟨-, ⟨r, hr, -, hlog⟩ | ⟨err, -, hh, -, hlog⟩⟩ := step_cases hs
  · rw [hlog]
    rcases lookup_served hr hl with hold | ⟨a, rfl, ha, hnic, hnum⟩
    · obtain ⟨x, hx, a, hack, hrest⟩ := hb n l hold
      exact ⟨x, List.mem_cons_of_mem _ hx, a, hack, hrest⟩
    · exact ⟨_, List.mem_cons_self .., a, ⟨_, rfl, rfl, ha⟩, hnic, hnum⟩
  · rw [hh] at hl
    rw [hlog]
    obtain ⟨x, hx, a, hack, hrest⟩ := hb n l hl
    exact ⟨x, List.mem_cons_of_mem _ hx, a, hack, hrest⟩

theorem backed_run {ctx : DhcpCtx} {t₀ : ℤ} {evs : List Event}
    (hrun : run (step sel) (boot (newDHCPv4Handler ctx) t₀) evs = some s) : Backed s := by
  refine run_invariant Backed ?_ (fun _ _ _ ht hstep => backed_step ht hstep) hrun
  intro n l hl
  rw [boot, newDHCPv4Handler, Finmap.lookup_empty] at hl
  cases hl

/-- A server with a pool does not panic. -/
theorem alive_run {h : Handler} {t₀ : ℤ} {evs : List Event}
    (hrun : run (step sel) (boot h t₀) evs = some s) (hpos : 0 < s.handler.leaseRange) :
    s.alive = true := by
  refine run_invariant (fun s => 0 < s.handler.leaseRange → s.alive = true) (fun _ => rfl) ?_ hrun
    hpos
  intro t a t' _ hstep hpos'
  obtain ⟨-, ⟨r, -, halive, -⟩ | ⟨err, herr, hh, -⟩⟩ := step_cases hstep
  · exact halive
  · rw [hh] at hpos'
    exact absurd (serveDHCP_error herr).2 (discoverLease_ne_error hpos' _ _ _)

/-! ## The address of a client -/

/-- The call came from the client with this hardware address. -/
def From (x : Event × Outcome) (chaddr : Bytes) : Prop := x.1.message.packet.chaddr = chaddr

/-- The client was acknowledged `a` and nothing else, and has neither released nor declined
since.  The log is newest first. -/
structure Settled (s : Server) (chaddr : Bytes) (a : IPv4) : Prop where
  acked : ∃ mid x pre, s.log = mid ++ x :: pre ∧ From x chaddr ∧ Acked x a ∧
    ∀ y ∈ mid, From y chaddr → ¬ y.1.message.IsRelease
  only : ∀ y ∈ s.log, From y chaddr → ∀ b, Acked y b → b = a

/-- The lease of a settled client. -/
theorem Settled.heldBy {chaddr : Bytes} {a : IPv4} (h : Settled s chaddr a) (hheld : Held s) :
    HeldBy s.handler.leases (ipRange s.handler.start a - 1) (hardwareAddrString chaddr) := by
  obtain ⟨mid, x, pre, hlog, hfrom, hack, hkept⟩ := h.acked
  have hnic : x.1.message.nic = hardwareAddrString chaddr := congrArg hardwareAddrString hfrom
  rw [← hnic]
  refine hheld mid x pre a hlog hack fun y hy hrel => hkept y hy ?_ hrel.1
  exact hardwareAddrString_inj.1 (hrel.2.trans hnic)

/-- It has no other lease. -/
theorem Settled.unique {chaddr : Bytes} {a : IPv4} (h : Settled s chaddr a) (hb : Backed s) {n : ℤ}
    {l : Lease} (hl : s.handler.leases.lookup n = some l)
    (hnic : l.nic = hardwareAddrString chaddr) : n = ipRange s.handler.start a - 1 := by
  obtain ⟨x, hx, b, hack, hxnic, hnum⟩ := hb n l hl
  have hfrom : From x chaddr := hardwareAddrString_inj.1 (hxnic.trans hnic)
  rw [← hnum, h.only x hx hfrom b hack]

/-- A `Discover` finds that lease, in whatever order it looks at the table. -/
theorem Settled.discoverLease {chaddr : Bytes} {a : IPv4} (h : Settled s chaddr a) (hheld : Held s)
    (hb : Backed s) {c : Choices} (ho : GoMap.IsOrder c.order s.handler.leases) :
    discoverLease s.handler c (hardwareAddrString chaddr) =
      .ok (some (ipRange s.handler.start a - 1)) := by
  obtain ⟨l, hl, hnic⟩ := h.heldBy hheld
  cases hk : GoMap.firstKey (fun l : Lease => l.nic == hardwareAddrString chaddr) c.order with
  | none => exact absurd ⟨_, l, hl, hnic⟩ ((firstKey_eq_none_iff ho).1 hk)
  | some i =>
      obtain ⟨l', hl', hnic'⟩ := lookup_of_firstKey ho hk
      rw [Dhcp.discoverLease, hk, h.unique hb hl' hnic']

/-- A `Request` for the address asks for that lease, and may have it. -/
theorem Settled.requestLease {chaddr : Bytes} {a : IPv4} (h : Settled s chaddr a) (hheld : Held s)
    (hpool : InPool s.handler) {m : Message} (hm : m.reqIP = IPv4.bytes a) :
    requestLease s.handler m = some (ipRange s.handler.start a - 1) ∧
      grantable s.handler.leases (hardwareAddrString chaddr)
        (ipRange s.handler.start a - 1) = true := by
  obtain ⟨l, hl, hnic⟩ := h.heldBy hheld
  obtain ⟨hn0, hn, hpos, -⟩ := hpool _ l hl
  constructor
  · refine requestLease_eq_some.2 ⟨a, hm, ?_, ?_, hn0, hn⟩
    · rintro rfl
      rw [ipRange, show (0 : IPv4).toNat = 0 from rfl] at hpos
      omega
    · rw [ipRange]
      omega
  · refine grantable_iff.2 fun l' hl' => ?_
    rw [hl] at hl'
    cases hl'
    exact hnic

/-- The next message is answered with the address, by a reply of the given type. -/
def AnsweredWith (sel : SelectOrderOrAll) (s : Server) (e : Event) (type : MessageType) (a : IPv4) :
    Prop :=
  ∃ s' r, step sel s e = some s' ∧ s'.log = (e, .ok (some r)) :: s.log ∧ r.msgType = type ∧
    r.yIAddr = some a

/-- **A client keeps its address.**  In any state of any run in which the client is settled on
`a`, its next message is answered with `a`: a `Discover` with an offer, and a `Request` for `a`
that is for this server with an acknowledgement. -/
theorem sticky_address (sel : SelectOrderOrAll) (ctx : DhcpCtx) (t₀ : ℤ) (evs : List Event)
    (s : Server) (hrun : run (step sel) (boot (newDHCPv4Handler ctx) t₀) evs = some s)
    (chaddr : Bytes) (a : IPv4) (hsettled : Settled s chaddr a) (e : Event)
    (hfrom : e.message.packet.chaddr = chaddr) (hclock : s.clock ≤ e.choices.now)
    (horder : GoMap.IsOrder e.choices.order s.handler.leases) :
    (e.message.msgType = .discover → AnsweredWith sel s e .offer a) ∧
      (e.message.msgType = .request → e.message.reqIP = IPv4.bytes a →
        e.message.forUs s.handler.ip = true → AnsweredWith sel s e .ack a) := by
  have hheld : Held s := held_run hrun
  have hpool : InPool s.handler := inPool_run hrun
  obtain ⟨l, hl, -⟩ := hsettled.heldBy hheld
  obtain ⟨hn0, hn, -⟩ := hpool _ l hl
  have halive : s.alive = true := alive_run hrun (by omega)
  have hnic : e.message.nic = hardwareAddrString chaddr := congrArg hardwareAddrString hfrom
  constructor
  · intro hm
    have hd := hsettled.discoverLease hheld (backed_run hrun) horder
    rw [← hnic] at hd
    refine ⟨_, _, step_of_ok halive hclock horder (serveDHCP_offer sel hm hd), rfl, rfl, ?_⟩
    exact congrArg some (ipAdd_ipRange hn0)
  · intro hm hreq hus
    obtain ⟨hnum, hg⟩ := hsettled.requestLease hheld hpool hreq
    rw [← hnic] at hg
    have hack := serveDHCP_ack sel e.choices hm hus hnum hg
    refine ⟨_, _, step_of_ok halive hclock horder hack, rfl, rfl, ?_⟩
    rw [ackReply, hreq, bigEndianUint32_bytes]

/-- Client `01` is leased the only address of the pool.  After the lease has expired the
address is offered to client `02`, and still `01` is offered it again. -/
theorem sticky_address_expired :
    let h := newDHCPv4Handler (readmeCtx 1)
    let table := [⟨0, ⟨"01", 7200 * second⟩⟩]
    let e₁ : Event := ⟨⟨0, 0, []⟩, requestOf [1] 0x0a0ac80a⟩
    let e₂ : Event := ⟨⟨7200 * second + 1, 0, table⟩, discoverOf [2]⟩
    let e₃ : Event := ⟨⟨7200 * second + 1, 0, table⟩, discoverOf [1]⟩
    ∃ s, run (step selectOrderOrAll) (boot h 0) [e₁, e₂] = some s ∧
      (∃ r, (e₂, .ok (some r)) ∈ s.log ∧ r.yIAddr = some 0x0a0ac80a) ∧
      AnsweredWith selectOrderOrAll s e₃ .offer 0x0a0ac80a := by
  intro h table e₁ e₂ e₃
  let r₁ := ackReply selectOrderOrAll h e₁.message
  let r₂ := offerReply selectOrderOrAll h e₂.message 0
  let s : Server := ⟨h.grant 0 "01" 0, 7200 * second + 1, true,
    [(e₂, .ok (some r₂)), (e₁, .ok (some r₁))]⟩
  have hrun : run (step selectOrderOrAll) (boot h 0) [e₁, e₂] = some s := by decide +kernel
  have hsettled : Settled s [1] 0x0a0ac80a := by
    refine ⟨⟨[(e₂, .ok (some r₂))], (e₁, .ok (some r₁)), [], rfl, rfl,
      ⟨r₁, rfl, rfl, by decide +kernel⟩, ?_⟩, ?_⟩
    · intro y hy hfrom
      rw [List.mem_singleton] at hy
      subst hy
      exact absurd hfrom (by unfold From; decide)
    · intro y hy hfrom b hack
      rcases List.mem_cons.1 hy with rfl | hy
      · exact absurd hfrom (by unfold From; decide)
      · rw [List.mem_singleton] at hy
        subst hy
        obtain ⟨r, hr, -, hb⟩ := hack
        cases hr
        have ha : r₁.yIAddr = some 0x0a0ac80a := by decide +kernel
        rw [ha] at hb
        exact (Option.some.inj hb).symm
  refine ⟨s, hrun, ⟨r₂, List.mem_cons_self .., by decide +kernel⟩, ?_⟩
  exact (sticky_address selectOrderOrAll (readmeCtx 1) 0 _ s hrun [1] 0x0a0ac80a hsettled e₃ rfl
    (by decide +kernel) (by decide +kernel)).1 rfl

end Dhcp
