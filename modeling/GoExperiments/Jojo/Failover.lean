import Mathlib.Algebra.Group.Nat.Defs
import Mathlib.Data.List.Nodup
import GoExperiments.Jojo.Upstream

/-!
# Failover and the live list

When the server a query was sent to has failed too often, `markFailed` takes it out of `live`
and leaves the rest.  It counts the servers in `live` before it does so, and rebuilds the list
from the flags of the table.  The question is whether the rebuilt list can be empty.

* `LiveOnline` — in every run, `live` is a part of the servers flagged in use; so another
  address in `live` survives.
* `reaches_last_failure`, `reaches_down` — a run that takes all servers but those of one
  address out of use, one address after the other.
* `failover_keeps_live_iff` — no call empties the list, in any run, exactly when no address is
  configured twice.
-/

namespace Jojo

open Runs

/-- One call, for whatever address. -/
def callStep (maxFailures : UInt64) (t : UpstreamServers) (op : TableOp) : Option UpstreamServers :=
  some (applyOp maxFailures t op)

/-- A call of `markFailed` for an address in `live` leaves something in `live`. -/
def KeepsLive (maxFailures : UInt64) (t : UpstreamServers) (op : TableOp) : Prop :=
  ∀ addr, op = .markFailed addr → addr ∈ t.live → (markFailed maxFailures t addr).live ≠ []

/-! ## What is in `live` is in use -/

theorem onlineAddrs_sublist (servers : List UpstreamServer) :
    (onlineAddrs servers).Sublist (servers.map UpstreamServer.addr) :=
  List.filter_sublist.map _

/-- The configured addresses, and `live` within the servers in use. -/
structure LiveOnline (addrs : List String) (t : UpstreamServers) : Prop where
  addrs_eq : t.servers.map UpstreamServer.addr = addrs
  live_sublist : t.live.Sublist (onlineAddrs t.servers)

section Invariant

variable {maxFailures : UInt64} {addrs : List String} {t t' : UpstreamServers}

theorem liveOnline_markFailed {addr : String} (h : LiveOnline addrs t) :
    LiveOnline addrs (markFailed maxFailures t addr) := by
  have haddrs := addrs_countFailure maxFailures addr t.servers
  rcases markFailed_cases maxFailures t addr with heq | heq | ⟨-, heq⟩ <;> rw [heq]
  · refine ⟨haddrs.trans h.addrs_eq, ?_⟩
    rw [onlineAddrs_countFailure]
    exact h.live_sublist
  · refine ⟨(addrs_resetAll _).trans (haddrs.trans h.addrs_eq), ?_⟩
    rw [onlineAddrs_resetAll]
  · refine ⟨(addrs_takeOffline addr _).trans (haddrs.trans h.addrs_eq), ?_⟩
    rw [liveWithout_eq]

theorem liveOnline_step {op : TableOp} (h : LiveOnline addrs t)
    (hstep : callStep maxFailures t op = some t') : LiveOnline addrs t' := by
  cases hstep
  cases op with
  | probe ok =>
      exact ⟨(addrs_probeLoop t.servers ok).trans h.addrs_eq, probeLoop_sublist t.servers ok⟩
  | markFailed addr => exact liveOnline_markFailed h
  | reset =>
      rw [applyOp]
      rcases reset_cases t with heq | heq <;> rw [heq]
      · exact h
      · refine ⟨(addrs_resetAll _).trans h.addrs_eq, ?_⟩
        rw [onlineAddrs_resetAll]

theorem liveOnline_parse (str : String) :
    LiveOnline (parseUpstreamServers str).live (parseUpstreamServers str) := by
  refine ⟨?_, ?_⟩
  · simp [parseUpstreamServers]
  · rw [← agrees_parse str]

/-- Of two different addresses one is not the given one. -/
theorem exists_ne_of_nodup {live : List String} (hnodup : live.Nodup) (hlen : 1 < live.length)
    (addr : String) : ∃ a ∈ live, a ≠ addr := by
  match live, hlen with
  | x :: y :: rest, _ =>
    have hxy : x ≠ y := fun h => (List.nodup_cons.1 hnodup).1 (h ▸ List.mem_cons_self ..)
    by_cases hx : x = addr
    · exact ⟨y, by simp, fun hy => hxy (hx.trans hy.symm)⟩
    · exact ⟨x, by simp, hx⟩

/-- With the addresses configured once, a call leaves something in `live`. -/
theorem keepsLive_of_nodup (hnodup : addrs.Nodup) (h : LiveOnline addrs t) (op : TableOp) :
    KeepsLive maxFailures t op := by
  rintro addr - hmem
  rcases markFailed_cases maxFailures t addr with heq | heq | ⟨⟨-, hlen⟩, heq⟩ <;> rw [heq]
  · exact List.ne_nil_of_mem hmem
  · have haddr : addr ∈ t.servers.map UpstreamServer.addr :=
      (onlineAddrs_sublist t.servers).subset (h.live_sublist.subset hmem)
    rw [← addrs_countFailure maxFailures addr t.servers] at haddr
    exact List.ne_nil_of_mem haddr
  · -- another address is in `live`, so its server is in use
    have hlive : t.live.Nodup := by
      refine List.Nodup.sublist (h.live_sublist.trans (onlineAddrs_sublist t.servers)) ?_
      rwa [h.addrs_eq]
    obtain ⟨a, ha, hne⟩ := exists_ne_of_nodup hlive hlen addr
    have honline : a ∈ onlineAddrs (countFailure maxFailures addr t.servers).1 := by
      rw [onlineAddrs_countFailure]
      exact h.live_sublist.subset ha
    exact List.ne_nil_of_mem (mem_liveWithout.2 ⟨honline, hne⟩)

end Invariant

/-! ## Taking an address out of use -/

/-- A failure is counted at the first server with the address. -/
theorem countFailure_first (maxFailures : UInt64) {addr : String} {pre : List UpstreamServer}
    (post : List UpstreamServer) {server : UpstreamServer} (hpre : ∀ s ∈ pre, s.addr ≠ addr)
    (haddr : server.addr = addr) (hon : server.offline = false) :
    countFailure maxFailures addr (pre ++ server :: post) =
      (pre ++ { server with failures := server.failures + 1 } :: post,
        decide (server.failures + 1 < maxFailures)) := by
  induction pre with
  | nil => simp [countFailure, haddr, hon]
  | cons s pre ih =>
      have hs : s.addr ≠ addr := hpre s (List.mem_cons_self ..)
      have htail := ih fun s' hs' => hpre s' (List.mem_cons_of_mem _ hs')
      rw [List.cons_append, countFailure, if_pos hs, htail]
      rfl

theorem toNat_succ {n : UInt64} (h : n.toNat + 1 < 2 ^ 64) : (n + 1).toNat = n.toNat + 1 := by
  rw [UInt64.toNat_add]
  exact Nat.mod_eq_of_lt h

/-- Enough calls of `markFailed` bring the count to the limit.  `n` bounds the calls that
return early. -/
theorem reaches_last_failure (maxFailures : UInt64) {addr : String} {pre : List UpstreamServer}
    (post : List UpstreamServer) {live : List String} (hpre : ∀ s ∈ pre, s.addr ≠ addr)
    (hlive : 1 < live.length) (n : ℕ) {server : UpstreamServer} (haddr : server.addr = addr)
    (hon : server.offline = false) (hn : maxFailures.toNat ≤ server.failures.toNat + 1 + n)
    (hfit : server.failures.toNat + 1 < 2 ^ 64) :
    ∃ f, Reaches (callStep maxFailures) ⟨pre ++ server :: post, live⟩
        ⟨pre ++ { server with failures := f } :: post, live⟩ ∧
      TakesOffline maxFailures ⟨pre ++ { server with failures := f } :: post, live⟩ addr := by
  induction n generalizing server with
  | zero =>
      have hcount := countFailure_first maxFailures post hpre haddr hon
      refine ⟨server.failures, .refl _, ?_, hlive⟩
      show (countFailure maxFailures addr (pre ++ server :: post)).2 = false
      rw [hcount]
      refine decide_eq_false fun hless => ?_
      have hless' := UInt64.lt_iff_toNat_lt.1 hless
      rw [toNat_succ hfit] at hless'
      omega
  | succ n ih =>
      have hcount := countFailure_first maxFailures post hpre haddr hon
      by_cases hless : server.failures + 1 < maxFailures
      · -- the call returns from its first loop
        have hcall : callStep maxFailures ⟨pre ++ server :: post, live⟩ (.markFailed addr) =
            some ⟨pre ++ { server with failures := server.failures + 1 } :: post, live⟩ := by
          simp [callStep, applyOp, markFailed, hcount, hless]
        have hless' := UInt64.lt_iff_toNat_lt.1 hless
        have hmax := maxFailures.toNat_lt
        have hnext := toNat_succ hfit
        let counted : UpstreamServer := { server with failures := server.failures + 1 }
        obtain ⟨f, hreach, htakes⟩ := @ih counted haddr hon
          (by show _ ≤ (server.failures + 1).toNat + 1 + n; omega)
          (by show (server.failures + 1).toNat + 1 < 2 ^ 64; omega)
        exact ⟨f, .head hcall hreach, htakes⟩
      · refine ⟨server.failures, .refl _, ?_, hlive⟩
        show (countFailure maxFailures addr (pre ++ server :: post)).2 = false
        rw [hcount]
        exact decide_eq_false hless

/-- The servers of the addresses in `down` are offline, and the others as at the start. -/
structure DownTo (addrs down : List String) (t : UpstreamServers) : Prop where
  addrs_eq : t.servers.map UpstreamServer.addr = addrs
  agrees : Agrees t
  offline : ∀ s ∈ t.servers, s.addr ∈ down → s.offline = true
  online : ∀ s ∈ t.servers, s.addr ∉ down → s.offline = false ∧ s.failures = 0

section Down

variable {addrs down : List String} {t : UpstreamServers} {a b : String}

theorem downTo_parse (str : String) :
    DownTo (parseUpstreamServers str).live [] (parseUpstreamServers str) := by
  refine ⟨(liveOnline_parse str).addrs_eq, agrees_parse str, fun s _ h => absurd h (by simp), ?_⟩
  intro s hs _
  obtain ⟨addr, -, rfl⟩ := List.mem_map.1 hs
  exact ⟨rfl, rfl⟩

/-- The first server of an address. -/
theorem exists_first (haddrs : t.servers.map UpstreamServer.addr = addrs) (hb : b ∈ addrs) :
    ∃ pre server post, t.servers = pre ++ server :: post ∧ (∀ s ∈ pre, s.addr ≠ b) ∧
      server.addr = b := by
  obtain ⟨as, bs, hsplit, hnot⟩ := List.eq_append_cons_of_mem hb
  rw [← haddrs] at hsplit
  obtain ⟨pre, tail, hservers, rfl, htail⟩ := List.map_eq_append_iff.1 hsplit
  obtain ⟨server, post, rfl, haddr, -⟩ := List.map_eq_cons_iff.1 htail
  exact ⟨pre, server, post, hservers, fun s hs h => hnot (h ▸ List.mem_map_of_mem hs), haddr⟩

/-- The run up to the last failure of an address that is in use, and the call that takes it
out. -/
theorem DownTo.reaches_last (maxFailures : UInt64) (h : DownTo addrs down t) (hb : b ∈ addrs)
    (hup : b ∉ down) (hlive : 1 < t.live.length) :
    ∃ pre server post f, t.servers = pre ++ server :: post ∧ server.addr = b ∧
      Reaches (callStep maxFailures) t ⟨pre ++ { server with failures := f } :: post, t.live⟩ ∧
      markFailed maxFailures ⟨pre ++ { server with failures := f } :: post, t.live⟩ b =
        ⟨takeOffline b (pre ++ { server with failures := f + 1 } :: post),
          liveWithout b (pre ++ { server with failures := f + 1 } :: post)⟩ := by
  obtain ⟨pre, server, post, hservers, hpre, haddr⟩ := exists_first h.addrs_eq hb
  have hmem : server ∈ t.servers := by
    rw [hservers]
    exact List.mem_append_right _ (List.mem_cons_self ..)
  obtain ⟨hon, hfail⟩ := h.online server hmem (by rwa [haddr])
  obtain ⟨f, hreach, htakes⟩ := reaches_last_failure maxFailures post
    hpre hlive maxFailures.toNat haddr hon (by omega) (by rw [hfail]; decide)
  rw [← hservers] at hreach
  refine ⟨pre, server, post, f, hservers, haddr, hreach, ?_⟩
  let counted : UpstreamServer := { server with failures := f }
  rw [markFailed_of_takesOffline htakes, @countFailure_first maxFailures b pre post counted hpre
    haddr hon]

/-- Counting a failure and taking the address out of use moves it to `down`. -/
theorem DownTo.takeOffline {pre post : List UpstreamServer} {server : UpstreamServer} {f : UInt64}
    (h : DownTo addrs down t) (hservers : t.servers = pre ++ server :: post)
    (haddr : server.addr = b) {servers : List UpstreamServer}
    (hcount : servers = pre ++ { server with failures := f } :: post) :
    DownTo addrs (b :: down) ⟨takeOffline b servers, liveWithout b servers⟩ := by
  have hold : ∀ s ∈ servers, s.addr ≠ b → s ∈ t.servers := by
    intro s hs hne
    rw [hcount, List.mem_append, List.mem_cons] at hs
    rw [hservers, List.mem_append, List.mem_cons]
    rcases hs with hs | rfl | hs
    · exact Or.inl hs
    · exact absurd haddr hne
    · exact Or.inr (Or.inr hs)
  refine ⟨?_, liveWithout_eq b servers, ?_, ?_⟩
  · rw [addrs_takeOffline, ← h.addrs_eq, hcount, hservers]
    simp
  · intro s hs hdown
    obtain ⟨s₀, hs₀, rfl⟩ := List.mem_map.1 hs
    by_cases hs₀b : s₀.addr = b
    · rw [if_pos hs₀b]
    · rw [if_neg hs₀b] at hdown ⊢
      exact h.offline s₀ (hold s₀ hs₀ hs₀b) ((List.mem_cons.1 hdown).resolve_left hs₀b)
  · intro s hs hup
    obtain ⟨s₀, hs₀, rfl⟩ := List.mem_map.1 hs
    by_cases hs₀b : s₀.addr = b
    · rw [if_pos hs₀b] at hup
      exact absurd (List.mem_cons.2 (Or.inl hs₀b)) hup
    · rw [if_neg hs₀b] at hup ⊢
      exact h.online s₀ (hold s₀ hs₀ hs₀b) fun hmem => hup (List.mem_cons_of_mem _ hmem)

/-- One more address out of use. -/
theorem DownTo.reaches_cons (maxFailures : UInt64) (h : DownTo addrs down t) (hb : b ∈ addrs)
    (hup : b ∉ down) (hlive : 1 < t.live.length) :
    ∃ t', Reaches (callStep maxFailures) t t' ∧ DownTo addrs (b :: down) t' := by
  obtain ⟨pre, server, post, f, hservers, haddr, hreach, hmark⟩ :=
    h.reaches_last maxFailures hb hup hlive
  have hcall := congrArg some hmark
  refine ⟨_, hreach.trans (@Reaches.head _ _ _ _ _ _ (.markFailed b) hcall (.refl _)), ?_⟩
  exact h.takeOffline hservers haddr rfl

/-- All servers of an address in use are in `live`. -/
theorem DownTo.count_live (h : DownTo addrs down t) (ha : a ∉ down) :
    t.live.count a = addrs.count a := by
  have hcount : ∀ servers : List UpstreamServer, (∀ s ∈ servers, s.addr = a → s.offline = false) →
      (onlineAddrs servers).count a = (servers.map UpstreamServer.addr).count a := by
    intro servers
    induction servers with
    | nil => exact fun _ => rfl
    | cons s rest ih =>
        intro hon
        have hrest := ih fun s' hs' => hon s' (List.mem_cons_of_mem _ hs')
        rw [onlineAddrs_cons, List.map_cons, List.count_cons, ← hrest]
        by_cases hs : s.addr = a
        · rw [hon s (List.mem_cons_self ..) hs, if_neg Bool.false_ne_true, List.count_cons]
        · split <;> simp [hs]
  rw [h.agrees, ← h.addrs_eq]
  refine hcount t.servers fun s hs haddr => (h.online s hs ?_).1
  rwa [haddr]

/-- Every address but one that is configured twice can be taken out of use. -/
theorem DownTo.reaches_all (maxFailures : UInt64) (hdup : 1 < addrs.count a) (bs : List String)
    (hbs : ∀ b ∈ bs, b ∈ addrs ∧ b ≠ a) (h : DownTo addrs down t) (ha : a ∉ down) :
    ∃ t' down', Reaches (callStep maxFailures) t t' ∧ DownTo addrs down' t' ∧ a ∉ down' ∧
      ∀ b ∈ bs, b ∈ down' := by
  induction bs with
  | nil => exact ⟨t, down, .refl t, h, ha, fun b hb => absurd hb (by simp)⟩
  | cons b bs ih =>
      obtain ⟨t₁, down₁, hreach, h₁, ha₁, hall⟩ :=
        ih fun b' hb' => hbs b' (List.mem_cons_of_mem _ hb')
      by_cases hb : b ∈ down₁
      · refine ⟨t₁, down₁, hreach, h₁, ha₁, ?_⟩
        rintro b' hb'
        rcases List.mem_cons.1 hb' with rfl | hb'
        · exact hb
        · exact hall b' hb'
      · obtain ⟨hbaddr, hba⟩ := hbs b (List.mem_cons_self ..)
        have hlive : 1 < t₁.live.length := by
          have hle := List.count_le_length (a := a) (l := t₁.live)
          rw [h₁.count_live ha₁] at hle
          omega
        obtain ⟨t₂, hreach₂, h₂⟩ := h₁.reaches_cons maxFailures hbaddr hb hlive
        refine ⟨t₂, b :: down₁, hreach.trans hreach₂, h₂, ?_, ?_⟩
        · exact fun hmem => (List.mem_cons.1 hmem).elim (fun h => hba h.symm) ha₁
        · rintro b' hb'
          rcases List.mem_cons.1 hb' with rfl | hb'
          · exact List.mem_cons_self ..
          · exact List.mem_cons_of_mem _ (hall b' hb')

/-- With only the servers of `a` in use, the last failure of `a` empties `live`. -/
theorem DownTo.reaches_empty (maxFailures : UInt64) (h : DownTo addrs down t)
    (hdup : 1 < addrs.count a) (ha : a ∉ down) (hall : ∀ b ∈ addrs, b ≠ a → b ∈ down) :
    ∃ t', Reaches (callStep maxFailures) t t' ∧ a ∈ t'.live ∧
      (markFailed maxFailures t' a).live = [] := by
  have hcount : t.live.count a = addrs.count a := h.count_live ha
  have hmem : a ∈ t.live := List.count_pos_iff.1 (by omega)
  have hlive : 1 < t.live.length := by
    have hle := List.count_le_length (a := a) (l := t.live)
    omega
  have haddr : a ∈ addrs := List.count_pos_iff.1 (by omega)
  obtain ⟨pre, server, post, f, hservers, hserver, hreach, hmark⟩ :=
    h.reaches_last maxFailures haddr ha hlive
  refine ⟨_, hreach, hmem, ?_⟩
  rw [hmark]
  refine List.eq_nil_iff_forall_not_mem.2 fun b hb => ?_
  -- another server in use would be one of the table before
  obtain ⟨⟨s, hs, rfl, hon⟩, hne⟩ := (mem_liveWithout.1 hb).imp_left mem_onlineAddrs.1
  have hold : s ∈ t.servers := by
    rw [List.mem_append, List.mem_cons] at hs
    rw [hservers, List.mem_append, List.mem_cons]
    rcases hs with hs | rfl | hs
    · exact Or.inl hs
    · exact absurd hserver hne
    · exact Or.inr (Or.inr hs)
  have hsaddr : s.addr ∈ addrs := by
    rw [← h.addrs_eq]
    exact List.mem_map_of_mem hold
  have hoff := h.offline s hold (hall s.addr hsaddr hne)
  rw [hon] at hoff
  cases hoff

end Down

/-! ## When failover keeps a server -/

/-- **Failover keeps a server.**  Whatever `maxFailures` is, no call of `markFailed` for an
address in `live` empties `live`, in any run from the parsed table, exactly when no address is
given twice. -/
theorem failover_keeps_live_iff (maxFailures : UInt64) (str : String) :
    (∀ ops, EachStep (callStep maxFailures) (KeepsLive maxFailures) (parseUpstreamServers str)
      ops) ↔ (parseUpstreamServers str).live.Nodup := by
  constructor
  · intro hall
    rw [List.nodup_iff_count_le_one]
    intro a
    by_contra hdup
    let others := (parseUpstreamServers str).live.filter fun b => decide (b ≠ a)
    obtain ⟨t, down, hreach, hdown, ha, hothers⟩ :=
      (downTo_parse str).reaches_all maxFailures (Nat.not_le.1 hdup) others
        (fun b hb => by simpa [others] using hb) (by simp)
    obtain ⟨t', hreach', hmem, hempty⟩ := hdown.reaches_empty maxFailures (Nat.not_le.1 hdup) ha
      fun b hb hne => hothers b (by simp [others, hb, hne])
    obtain ⟨ops, hops⟩ := hreach.trans hreach'
    exact hall (ops ++ [.markFailed a]) ops (.markFailed a) [] t' _ rfl hops rfl a rfl hmem hempty
  · intro hnodup ops pre op post t t' _ hrun _
    refine keepsLive_of_nodup hnodup ?_ op
    exact run_invariant (LiveOnline (parseUpstreamServers str).live) (liveOnline_parse str)
      (fun _ _ _ h hstep => liveOnline_step h hstep) hrun

/-- **A server given twice.**  Its first failure takes both entries out of use. -/
theorem failover_empties_live :
    "a" ∈ (parseUpstreamServers "a,a").live ∧
      (markFailed 1 (parseUpstreamServers "a,a") "a").live = [] := by
  decide +kernel

end Jojo
