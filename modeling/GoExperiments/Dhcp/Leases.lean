import GoExperiments.Lib.Runs
import GoExperiments.Dhcp.Serve

/-!
# Runs of the DHCP server

`dhcp4.Serve` hands the handler one message after the other.  A run of the
server is a list of events — a message with what the call reads besides it —
taken from an empty lease table under a clock that never goes back.  The main
results are about every run, whatever clients take part in it.

* `held_run` — the invariant behind the safety results: as long as a client does
  not release, the address last acknowledged to it stays recorded as its own.
* `no_double_allocation` — an address acknowledged to one client is not
  acknowledged to another before the first has released it.
* `one_lease_iff` — a run keeps one lease a client, and so does not depend on the
  order of its loops over the map, exactly when no client that holds a lease is
  granted a second number.
-/

namespace Dhcp

open Runs Go

/-- One call of the handler: the message and what the call reads besides it. -/
structure Event where
  choices : Choices
  message : Message
  deriving DecidableEq

/-- What came of a call: a reply, no reply, or a panic. -/
abbrev Outcome := Except String (Option Reply)

/-- A running server.  The log is kept for the statements only: the calls made so
far with their outcomes, the newest first. -/
structure Server where
  handler : Handler
  clock : ℤ
  alive : Bool
  log : List (Event × Outcome)
  deriving DecidableEq

/-- A server that has just been started. -/
def boot (h : Handler) (clock : ℤ) : Server := ⟨h, clock, true, []⟩

/-- One message is handled.  A panic ends the process. -/
def step (sel : SelectOrderOrAll) (s : Server) (e : Event) : Option Server :=
  if s.alive = true ∧ s.clock ≤ e.choices.now ∧
      GoMap.IsOrder e.choices.order s.handler.leases then
    match serveDHCP sel s.handler e.choices e.message with
    | .ok (h, r) => some ⟨h, e.choices.now, true, (e, .ok r) :: s.log⟩
    | .error err => some ⟨s.handler, e.choices.now, false, (e, .error err) :: s.log⟩
  else none

variable {sel : SelectOrderOrAll} {s s' : Server} {e : Event}

theorem step_of_ok {h : Handler} {r : Option Reply} (halive : s.alive = true)
    (hclock : s.clock ≤ e.choices.now) (ho : GoMap.IsOrder e.choices.order s.handler.leases)
    (hs : serveDHCP sel s.handler e.choices e.message = .ok (h, r)) :
    step sel s e = some ⟨h, e.choices.now, true, (e, .ok r) :: s.log⟩ := by
  rw [step, if_pos ⟨halive, hclock, ho⟩, hs]

theorem step_of_error {err : String} (halive : s.alive = true) (hclock : s.clock ≤ e.choices.now)
    (ho : GoMap.IsOrder e.choices.order s.handler.leases)
    (hs : serveDHCP sel s.handler e.choices e.message = .error err) :
    step sel s e = some ⟨s.handler, e.choices.now, false, (e, .error err) :: s.log⟩ := by
  rw [step, if_pos ⟨halive, hclock, ho⟩, hs]

theorem step_eq_of_ok {h : Handler} {r : Option Reply} (hs : step sel s e = some s')
    (hserve : serveDHCP sel s.handler e.choices e.message = .ok (h, r)) :
    s' = ⟨h, e.choices.now, true, (e, .ok r) :: s.log⟩ := by
  rw [step, hserve] at hs
  split at hs
  · cases hs; rfl
  · cases hs

/-- Everything a step can do. -/
theorem step_cases (hs : step sel s e = some s') :
    GoMap.IsOrder e.choices.order s.handler.leases ∧
    ((∃ r, Served sel s.handler e.choices e.message s'.handler r ∧ s'.alive = true ∧
        s'.log = (e, .ok r) :: s.log) ∨
      (∃ err, serveDHCP sel s.handler e.choices e.message = .error err ∧
        s'.handler = s.handler ∧ s'.alive = false ∧ s'.log = (e, .error err) :: s.log)) := by
  rw [step] at hs
  split at hs
  · rename_i hguard
    refine ⟨hguard.2.2, ?_⟩
    split at hs
    · rename_i h r hserve
      cases hs
      exact Or.inl ⟨r, served_of_serveDHCP hserve, rfl, rfl⟩
    · rename_i err hserve
      cases hs
      exact Or.inr ⟨err, hserve, rfl, rfl, rfl⟩
  · cases hs

/-- The handlers of one server differ in the lease table only. -/
def SameConfig (h h' : Handler) : Prop :=
  h'.ip = h.ip ∧ h'.options = h.options ∧ h'.start = h.start ∧ h'.leaseRange = h.leaseRange ∧
    h'.leaseDuration = h.leaseDuration

theorem SameConfig.trans {h₁ h₂ h₃ : Handler} (h : SameConfig h₁ h₂) (h' : SameConfig h₂ h₃) :
    SameConfig h₁ h₃ := by
  obtain ⟨hip, hopt, hstart, hrange, hdur⟩ := h
  obtain ⟨hip', hopt', hstart', hrange', hdur'⟩ := h'
  exact ⟨hip'.trans hip, hopt'.trans hopt, hstart'.trans hstart, hrange'.trans hrange,
    hdur'.trans hdur⟩

theorem sameConfig_step (hs : step sel s e = some s') : SameConfig s.handler s'.handler := by
  obtain ⟨-, ⟨r, hr, -⟩ | ⟨err, -, hh, -⟩⟩ := step_cases hs
  · exact hr.frame
  · rw [hh]; exact ⟨rfl, rfl, rfl, rfl, rfl⟩

theorem sameConfig_run {h : Handler} {t₀ : ℤ} {evs : List Event}
    (hrun : run (step sel) (boot h t₀) evs = some s) : SameConfig h s.handler := by
  refine run_invariant (fun s => SameConfig h s.handler) ⟨rfl, rfl, rfl, rfl, rfl⟩ ?_ hrun
  intro t a t' ht hstep
  exact ht.trans (sameConfig_step hstep)

/-! ## The lease table stays in the pool -/

/-- Every lease number is in the pool, and its address is a nonzero address that
is reached from `start` without wrap-around. -/
def InPool (h : Handler) : Prop :=
  ∀ n l, h.leases.lookup n = some l →
    0 ≤ n ∧ n < h.leaseRange ∧ 0 < (h.start.toNat : ℤ) + n ∧ (h.start.toNat : ℤ) + n < 2 ^ 32

theorem lookup_grant {h : Handler} {n k now : ℤ} {nic : String} :
    (h.grant n nic now).leases.lookup k =
      if k = n then some ⟨nic, now + h.leaseDuration⟩ else h.leases.lookup k := by
  by_cases hk : k = n
  · subst hk
    rw [if_pos rfl, Handler.grant, Finmap.lookup_insert]
  · rw [if_neg hk, Handler.grant, Finmap.lookup_insert_of_ne _ hk]

theorem lookup_delete {h : Handler} {i k : ℤ} :
    (h.delete i).leases.lookup k = if k = i then none else h.leases.lookup k := by
  by_cases hk : k = i
  · subst hk
    rw [if_pos rfl, Handler.delete, Finmap.lookup_erase]
  · rw [if_neg hk, Handler.delete, Finmap.lookup_erase_ne hk]

/-- What an accepted `Request` says about its number. -/
theorem requestLease_inPool {h : Handler} {m : Message} {n : ℤ} (hreq : requestLease h m = some n) :
    0 ≤ n ∧ n < h.leaseRange ∧ 0 < (h.start.toNat : ℤ) + n ∧ (h.start.toNat : ℤ) + n < 2 ^ 32 := by
  obtain ⟨ip, -, hne, hval, hn0, hn⟩ := requestLease_eq_some.1 hreq
  have hlt := ip.isLt
  have hpos := toNat_pos hne
  exact ⟨hn0, hn, by omega, by omega⟩

theorem inPool_served {h h' : Handler} {c : Choices} {m : Message} {r : Option Reply}
    (hs : Served sel h c m h' r) (hin : InPool h) : InPool h' := by
  cases hs with
  | ack hm hus hreq hg =>
      intro k l hl
      rw [lookup_grant] at hl
      split at hl
      · rename_i hk
        subst hk
        exact requestLease_inPool hreq
      · exact hin k l hl
  | release hm hi =>
      intro k l hl
      rw [lookup_delete] at hl
      split at hl
      · cases hl
      · exact hin k l hl
  | _ => exact hin

theorem inPool_step (hin : InPool s.handler) (hs : step sel s e = some s') :
    InPool s'.handler := by
  obtain ⟨-, ⟨r, hr, -⟩ | ⟨err, -, hh, -⟩⟩ := step_cases hs
  · exact inPool_served hr hin
  · rw [hh]; exact hin

theorem inPool_new (ctx : DhcpCtx) : InPool (newDHCPv4Handler ctx) := by
  intro n l hl
  rw [newDHCPv4Handler, Finmap.lookup_empty] at hl
  cases hl

theorem inPool_run {ctx : DhcpCtx} {t₀ : ℤ} {evs : List Event}
    (hrun : run (step sel) (boot (newDHCPv4Handler ctx) t₀) evs = some s) : InPool s.handler :=
  run_invariant (fun s => InPool s.handler) (inPool_new ctx)
    (fun _ _ _ ht hstep => inPool_step ht hstep) hrun

/-! ## An acknowledged address stays with its client -/

/-- The call acknowledged the address `a` to its sender. -/
def Acked (x : Event × Outcome) (a : IPv4) : Prop :=
  ∃ r, x.2 = .ok (some r) ∧ r.msgType = .ack ∧ r.yIAddr = some a

/-- The call was a `Release` or a `Decline` of the client. -/
def ReleasedBy (x : Event × Outcome) (nic : String) : Prop :=
  x.1.message.IsRelease ∧ x.1.message.nic = nic

/-- The lease of number `n` is recorded as the client's. -/
def HeldBy (leases : Leases) (n : ℤ) (nic : String) : Prop :=
  ∃ l, leases.lookup n = some l ∧ l.nic = nic

/-- An address acknowledged to a client that has not released since is recorded
as that client's.  Nothing is said about the expiry: no message looks at it
except `Discover`. -/
def Held (s : Server) : Prop :=
  ∀ mid x pre a, s.log = mid ++ x :: pre → Acked x a →
    (∀ y ∈ mid, ¬ ReleasedBy y x.1.message.nic) →
    HeldBy s.handler.leases (ipRange s.handler.start a - 1) x.1.message.nic

/-- A call takes a recorded lease away from its holder only if it is a release by
that holder. -/
theorem heldBy_served {h h' : Handler} {c : Choices} {m : Message} {r : Option Reply} {n : ℤ}
    {nic : String} (ho : GoMap.IsOrder c.order h.leases) (hs : Served sel h c m h' r)
    (hnot : ¬ (m.IsRelease ∧ m.nic = nic)) (hheld : HeldBy h.leases n nic) :
    HeldBy h'.leases n nic := by
  obtain ⟨l, hl, hnic⟩ := hheld
  cases hs with
  | @ack k hm hus hreq hg =>
      by_cases hnk : n = k
      · -- the number is granted again, so to the client that has it
        subst hnk
        refine ⟨⟨m.nic, c.now + h.leaseDuration⟩, ?_, ?_⟩
        · rw [lookup_grant, if_pos rfl]
        · exact ((grantable_iff.1 hg l hl).symm.trans hnic)
      · exact ⟨l, by rw [lookup_grant, if_neg hnk]; exact hl, hnic⟩
  | @release i hm hi =>
      obtain ⟨l', hl', hnic'⟩ := lookup_of_firstKey ho hi
      have hni : n ≠ i := by
        rintro rfl
        rw [hl] at hl'
        cases hl'
        exact hnot ⟨hm, hnic'.symm.trans hnic⟩
      exact ⟨l, by rw [lookup_delete, if_neg hni]; exact hl, hnic⟩
  | _ => exact ⟨l, hl, hnic⟩

/-- A call that acknowledges an address grants its number to the sender. -/
theorem heldBy_of_acked {h h' : Handler} {c : Choices} {m : Message} {r : Reply} {a : IPv4}
    (hs : Served sel h c m h' (some r)) (hack : r.msgType = .ack) (ha : r.yIAddr = some a) :
    requestLease h m = some (ipRange h.start a - 1) ∧
      grantable h.leases m.nic (ipRange h.start a - 1) = true ∧
      HeldBy h'.leases (ipRange h.start a - 1) m.nic := by
  cases hs with
  | offer => cases hack
  | nak => cases hack
  | @ack n hm hus hreq hg =>
      obtain ⟨ip, hip, hne, hval, hn0, hn⟩ := requestLease_eq_some.1 hreq
      have hanum : ipRange h.start a - 1 = n := by
        have hia : a = ip := by
          rw [ackReply] at ha
          simp only [hip, bigEndianUint32_bytes, Option.some.injEq] at ha
          exact ha.symm
        rw [hia, ipRange]
        omega
      rw [hanum]
      exact ⟨hreq, hg, ⟨m.nic, c.now + h.leaseDuration⟩, by rw [lookup_grant, if_pos rfl], rfl⟩

theorem held_step (hh : Held s) (hs : step sel s e = some s') : Held s' := by
  have hstart : s'.handler.start = s.handler.start := (sameConfig_step hs).2.2.1
  intro mid x pre a hlog hack hnot
  obtain ⟨ho, ⟨r, hr, -, hlog'⟩ | ⟨err, -, hh', -, hlog'⟩⟩ := step_cases hs
  · rw [hlog'] at hlog
    rw [hstart]
    cases mid with
    | nil =>
        obtain ⟨rfl, -⟩ := List.cons.inj hlog
        obtain ⟨r', hr', hmt, hya⟩ := hack
        cases hr'
        exact (heldBy_of_acked hr hmt hya).2.2
    | cons y mid =>
        obtain ⟨rfl, hrest⟩ := List.cons.inj hlog
        refine heldBy_served ho hr ?_ (hh mid x pre a hrest hack fun z hz => hnot z (by simp [hz]))
        exact fun hrel => hnot (e, .ok r) (by simp) hrel
  · rw [hlog'] at hlog
    rw [hh']
    cases mid with
    | nil =>
        obtain ⟨rfl, -⟩ := List.cons.inj hlog
        obtain ⟨r', hr', -⟩ := hack
        cases hr'
    | cons y mid =>
        obtain ⟨rfl, hrest⟩ := List.cons.inj hlog
        exact hh mid x pre a hrest hack fun z hz => hnot z (by simp [hz])

theorem held_boot (h : Handler) (t₀ : ℤ) : Held (boot h t₀) := by
  intro mid x pre a hlog
  exact absurd hlog (by simp [boot])

/-- **An acknowledged address stays with its client** until the client releases,
in every run. -/
theorem held_run {h : Handler} {t₀ : ℤ} {evs : List Event}
    (hrun : run (step sel) (boot h t₀) evs = some s) : Held s :=
  run_invariant Held (held_boot h t₀) (fun _ _ _ ht hstep => held_step ht hstep) hrun

/-! ## No double allocation -/

/-- Between two acknowledgements of one address to two clients there is a release
by the first. -/
def NoDouble (s : Server) : Prop :=
  ∀ post y mid x pre a, s.log = post ++ y :: (mid ++ x :: pre) → Acked x a → Acked y a →
    x.1.message.nic ≠ y.1.message.nic → ∃ z ∈ mid, ReleasedBy z x.1.message.nic

theorem noDouble_step (hheld : Held s) (hd : NoDouble s) (hs : step sel s e = some s') :
    NoDouble s' := by
  intro post y mid x pre a hlog hx hy hne
  obtain ⟨ho, ⟨r, hr, -, hlog'⟩ | ⟨err, -, -, -, hlog'⟩⟩ := step_cases hs
  · rw [hlog'] at hlog
    cases post with
    | nil =>
        -- the newest call is the second acknowledgement
        obtain ⟨rfl, hrest⟩ := List.cons.inj hlog
        obtain ⟨r', hr', hmt, hya⟩ := hy
        cases hr'
        obtain ⟨-, hg, -⟩ := heldBy_of_acked hr hmt hya
        by_contra hnone
        have hnot : ∀ z ∈ mid, ¬ ReleasedBy z x.1.message.nic := fun z hz hrel =>
          hnone ⟨z, hz, hrel⟩
        obtain ⟨l, hl, hnic⟩ := hheld mid x pre a hrest hx hnot
        exact hne (hnic.symm.trans (grantable_iff.1 hg l hl))
    | cons p post =>
        obtain ⟨rfl, hrest⟩ := List.cons.inj hlog
        exact hd post y mid x pre a hrest hx hy hne
  · rw [hlog'] at hlog
    cases post with
    | nil =>
        obtain ⟨rfl, -⟩ := List.cons.inj hlog
        obtain ⟨r', hr', -⟩ := hy
        cases hr'
    | cons p post =>
        obtain ⟨rfl, hrest⟩ := List.cons.inj hlog
        exact hd post y mid x pre a hrest hx hy hne

/-- **No double allocation.**  If an address is acknowledged to one client and
later to another, the lease time has passed or the first client has released in
between.  (The log is newest first: `y` is the later call.) -/
theorem no_double_allocation (sel : SelectOrderOrAll) (ctx : DhcpCtx) (t₀ : ℤ) (evs : List Event)
    (s : Server) (hrun : run (step sel) (boot (newDHCPv4Handler ctx) t₀) evs = some s)
    (post mid pre : List (Event × Outcome)) (x y : Event × Outcome) (a : IPv4)
    (hlog : s.log = post ++ y :: (mid ++ x :: pre)) (hx : Acked x a) (hy : Acked y a)
    (hne : x.1.message.nic ≠ y.1.message.nic) :
    x.1.choices.now + ctx.leaseDuration ≤ y.1.choices.now ∨
      ∃ z ∈ mid, ReleasedBy z x.1.message.nic := by
  have hboth : Held s ∧ NoDouble s := by
    refine run_invariant (fun s => Held s ∧ NoDouble s) ⟨held_boot _ t₀, ?_⟩ ?_ hrun
    · intro post y mid x pre a hlog
      exact absurd hlog (by simp [boot])
    · exact fun _ _ _ ht hstep => ⟨held_step ht.1 hstep, noDouble_step ht.1 ht.2 hstep⟩
  exact Or.inr (hboth.2 post y mid x pre a hlog hx hy hne)

/-! ### A run on the configuration of the README -/

/-- The configuration of the README, with a pool of `max` addresses. -/
def readmeCtx (max : ℤ) : DhcpCtx where
  bindIP := [10, 10, 200, 5]
  routerIP := 0x0a0ac801
  dnsIP := 0x0a0ac802
  subnetMask := 0xffffff00
  startIP := 0x0a0ac80a
  numLeaseMax := max
  leaseDuration := 7200 * second
  domainName := "foobar.local"

/-- One possible behaviour of `SelectOrderOrAll`: the options asked for, in the
order asked, and all of them by code when nothing is asked for. -/
def selectOrderOrAll : SelectOrderOrAll := fun o order =>
  ((order.getD ((List.range 256).map UInt8.ofNat)).filterMap fun code =>
    (o.lookup code).map fun value => (code, value))

/-- A plain `Discover`. -/
def discoverOf (chaddr : Bytes) : Message := ⟨⟨0, chaddr⟩, .discover, ∅⟩

/-- A plain `Request` for an address. -/
def requestOf (chaddr : Bytes) (a : IPv4) : Message :=
  ⟨⟨0, chaddr⟩, .request, (∅ : Options).insert optionRequestedIPAddress (IPv4.bytes a)⟩

/-- A plain `Release`. -/
def releaseOf (chaddr : Bytes) : Message := ⟨⟨0, chaddr⟩, .release, ∅⟩

/-- The only address of a pool of one is leased, released and leased to another
client. -/
theorem no_double_allocation_readme :
    let h := newDHCPv4Handler (readmeCtx 1)
    let h₁ := h.grant 0 "01" 0
    let h₂ := h₁.delete 0
    let e₁ : Event := ⟨⟨0, 0, []⟩, requestOf [1] 0x0a0ac80a⟩
    let e₂ : Event := ⟨⟨1, 0, [⟨0, ⟨"01", 7200 * second⟩⟩]⟩, releaseOf [1]⟩
    let e₃ : Event := ⟨⟨2, 0, []⟩, requestOf [2] 0x0a0ac80a⟩
    let x : Event × Outcome := (e₁, .ok (some (ackReply selectOrderOrAll h e₁.message)))
    let y : Event × Outcome := (e₃, .ok (some (ackReply selectOrderOrAll h₂ e₃.message)))
    run (step selectOrderOrAll) (boot h 0) [e₁, e₂, e₃] =
        some ⟨h₂.grant 0 "02" 2, 2, true, [y, (e₂, .ok none), x]⟩ ∧
      (x.1.choices.now + (readmeCtx 1).leaseDuration ≤ y.1.choices.now ∨
        ∃ z ∈ [(e₂, .ok none)], ReleasedBy z x.1.message.nic) := by
  intro h h₁ h₂ e₁ e₂ e₃ x y
  have hrun : run (step selectOrderOrAll) (boot h 0) [e₁, e₂, e₃] =
      some ⟨h₂.grant 0 "02" 2, 2, true, [y, (e₂, .ok none), x]⟩ := by decide +kernel
  exact ⟨hrun, no_double_allocation selectOrderOrAll (readmeCtx 1) 0 _ _ hrun [] _ [] x y 0x0a0ac80a
    rfl ⟨_, rfl, rfl, by decide +kernel⟩ ⟨_, rfl, rfl, by decide +kernel⟩ (by decide +kernel)⟩

/-! ## One lease a client -/

/-- No two lease numbers belong to one client. -/
def OneLease (leases : Leases) : Prop :=
  ∀ n n' l l', leases.lookup n = some l → leases.lookup n' = some l' → l.nic = l'.nic → n = n'

/-- What uniqueness is for: with this lease table a call does not depend on the
order of its loop over the map, and a release leaves the client without a lease. -/
def OrderFree (sel : SelectOrderOrAll) (h : Handler) : Prop :=
  (∀ (c : Choices) (o : List (GoMap.Entry ℤ Lease)) (m : Message),
    GoMap.IsOrder c.order h.leases → GoMap.IsOrder o h.leases →
    serveDHCP sel h { c with order := o } m = serveDHCP sel h c m) ∧
  ∀ (c : Choices) (m : Message) (h' : Handler) (r : Option Reply), m.IsRelease →
    GoMap.IsOrder c.order h.leases → serveDHCP sel h c m = .ok (h', r) → ¬ Holds h'.leases m.nic

theorem OneLease.firstKey_eq {leases : Leases} (h1 : OneLease leases)
    {o o' : List (GoMap.Entry ℤ Lease)} (ho : GoMap.IsOrder o leases)
    (ho' : GoMap.IsOrder o' leases) (nic : String) :
    GoMap.firstKey (fun l : Lease => l.nic == nic) o =
      GoMap.firstKey (fun l : Lease => l.nic == nic) o' := by
  refine GoMap.firstKey_congr ho ho' fun k k' v v' hv hv' hp hp' => h1 k k' v v' hv hv' ?_
  simp only [beq_iff_eq] at hp hp'
  rw [hp, hp']

theorem OneLease.orderFree {h : Handler} (h1 : OneLease h.leases) : OrderFree sel h := by
  constructor
  · intro c o m hc ho
    have hkey := h1.firstKey_eq ho hc m.nic
    simp only [serveDHCP, discoverLease, hkey, Handler.grant]
  · intro c m h' r hm ho hs
    cases served_of_serveDHCP hs with
    | @release i _ hi =>
        rintro ⟨n, l, hl, hnic⟩
        obtain ⟨l', hl', hnic'⟩ := lookup_of_firstKey ho hi
        rw [lookup_delete] at hl
        split at hl
        · cases hl
        · rename_i hni
          exact hni (h1 n i l l' hl hl' (hnic.trans hnic'.symm))
    | noLease _ hi => exact (firstKey_eq_none_iff ho).1 hi
    | offer hd => exact absurd hd hm.ne_discover
    | full hd => exact absurd hd hm.ne_discover
    | ignored hq => exact absurd hq hm.ne_request
    | nak hq => exact absurd hq hm.ne_request
    | ack hq => exact absurd hq hm.ne_request
    | other _ _ hno => exact absurd hm hno

/-- The step does not grant a lease number to a client that holds one already.
The condition is on the table before the call: a `Request` for a number without a
lease comes from a client without a lease. -/
def FirstGrant (s : Server) (e : Event) : Prop :=
  e.message.msgType = .request → e.message.forUs s.handler.ip = true →
    ∀ n, requestLease s.handler e.message = some n → s.handler.leases.lookup n = none →
      ¬ Holds s.handler.leases e.message.nic

theorem firstGrant_of_ne_request (hm : e.message.msgType ≠ .request) : FirstGrant s e :=
  fun hq => absurd hq hm

theorem oneLease_delete {h : Handler} (h1 : OneLease h.leases) (i : ℤ) :
    OneLease (h.delete i).leases := by
  intro n n' l l' hl hl' hnic
  rw [lookup_delete] at hl hl'
  split at hl
  · cases hl
  · split at hl'
    · cases hl'
    · exact h1 n n' l l' hl hl' hnic

/-- Granting keeps the table unique exactly when the number was the client's
already or the client had none. -/
theorem oneLease_grant {h : Handler} (h1 : OneLease h.leases) {n now : ℤ} {nic : String}
    (hg : grantable h.leases nic n = true) :
    OneLease (h.grant n nic now).leases ↔ (h.leases.lookup n = none → ¬ Holds h.leases nic) := by
  constructor
  · rintro hnew hnone ⟨k, l, hl, hnic⟩
    have hkn : k ≠ n := by rintro rfl; rw [hnone] at hl; cases hl
    refine hkn (hnew k n l ⟨nic, now + h.leaseDuration⟩ ?_ ?_ hnic)
    · rw [lookup_grant, if_neg hkn]; exact hl
    · rw [lookup_grant, if_pos rfl]
  · intro hcond
    -- an old lease of the client is the one of number `n`
    have hold : ∀ k l, h.leases.lookup k = some l → l.nic = nic → k = n := by
      intro k l hl hnic
      cases hn : h.leases.lookup n with
      | none => exact absurd ⟨k, l, hl, hnic⟩ (hcond hn)
      | some l' => exact h1 k n l l' hl hn (hnic.trans (grantable_iff.1 hg l' hn).symm)
    intro k k' l l' hl hl' hnic
    rw [lookup_grant] at hl hl'
    split at hl
    · rename_i hk
      cases hl
      split at hl'
      · rename_i hk'
        exact hk.trans hk'.symm
      · exact hk.trans (hold k' l' hl' hnic.symm).symm
    · split at hl'
      · rename_i hk'
        cases hl'
        exact (hold k l hl hnic).trans hk'.symm
      · exact h1 k k' l l' hl hl' hnic

theorem oneLease_step (h1 : OneLease s.handler.leases) (hs : step sel s e = some s') :
    OneLease s'.handler.leases ↔ FirstGrant s e := by
  obtain ⟨ho, ⟨r, hr, -⟩ | ⟨err, herr, hh, -⟩⟩ := step_cases hs
  · generalize s'.handler = h' at hr
    cases hr with
    | @ack n hm hus hreq hg =>
        rw [oneLease_grant h1 hg]
        constructor
        · intro hcond _ _ k hk hnone
          rw [hreq] at hk
          cases hk
          exact hcond hnone
        · exact fun hfirst hnone => hfirst hm hus n hreq hnone
    | nak hm hno =>
        refine iff_of_true h1 fun _ _ n hn hnone => ?_
        have hfalse := hno n hn
        rw [grantable, hnone] at hfalse
        cases hfalse
    | ignored hm hus =>
        refine iff_of_true h1 fun _ hus' => ?_
        rw [hus] at hus'
        cases hus'
    | release hm =>
        exact iff_of_true (oneLease_delete h1 _) (firstGrant_of_ne_request hm.ne_request)
    | noLease hm => exact iff_of_true h1 (firstGrant_of_ne_request hm.ne_request)
    | offer hm => exact iff_of_true h1 (firstGrant_of_ne_request (by rw [hm]; decide))
    | full hm => exact iff_of_true h1 (firstGrant_of_ne_request (by rw [hm]; decide))
    | other _ hm => exact iff_of_true h1 (firstGrant_of_ne_request hm)
  · rw [hh]
    have hm := (serveDHCP_error herr).1
    exact iff_of_true h1 (firstGrant_of_ne_request (by rw [hm]; decide))

/-- **When a client has one lease.**  All along a run from the empty table each
client has at most one lease number — and with it no call depends on the order of
the map, and a release leaves nothing behind — exactly when no step grants a new
number to a client that holds one. -/
theorem one_lease_iff (sel : SelectOrderOrAll) (ctx : DhcpCtx) (t₀ : ℤ) (evs : List Event) :
    Always (step sel) (fun s => OneLease s.handler.leases ∧ OrderFree sel s.handler)
        (boot (newDHCPv4Handler ctx) t₀) evs ↔
      EachStep (step sel) FirstGrant (boot (newDHCPv4Handler ctx) t₀) evs := by
  have hempty : OneLease (newDHCPv4Handler ctx).leases := by
    intro n n' l l' hl
    rw [newDHCPv4Handler, Finmap.lookup_empty] at hl
    cases hl
  refine always_iff_eachStep (fun _ => True) trivial ⟨hempty, hempty.orderFree⟩
    (fun _ _ _ _ _ => trivial) ?_
  intro t a t' _ ht hs
  rw [← oneLease_step ht.1 hs]
  exact ⟨fun h => h.1, fun h => ⟨h, h.orderFree⟩⟩

/-- **Two leases for one client.**  Client `01` asks for both addresses of a pool
of two and gets both. -/
theorem two_leases_one_client :
    let h := newDHCPv4Handler (readmeCtx 2)
    let e₁ : Event := ⟨⟨0, 0, []⟩, requestOf [1] 0x0a0ac80a⟩
    let e₂ : Event := ⟨⟨1, 0, [⟨0, ⟨"01", 7200 * second⟩⟩]⟩, requestOf [1] 0x0a0ac80b⟩
    ∃ s, run (step selectOrderOrAll) (boot h 0) [e₁, e₂] = some s ∧
      ¬ OneLease s.handler.leases := by
  intro h e₁ e₂
  let s : Server := ⟨(h.grant 0 "01" 0).grant 1 "01" 1, 1, true,
    [(e₂, .ok (some (ackReply selectOrderOrAll h e₂.message))),
      (e₁, .ok (some (ackReply selectOrderOrAll h e₁.message)))]⟩
  have hrun : run (step selectOrderOrAll) (boot h 0) [e₁, e₂] = some s := by decide +kernel
  refine ⟨s, hrun, fun h1 => ?_⟩
  have heq := h1 0 1 ⟨"01", 7200 * second⟩ ⟨"01", 1 + 7200 * second⟩ (by decide +kernel)
    (by decide +kernel) rfl
  exact absurd heq (by decide)

end Dhcp
