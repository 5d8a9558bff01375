import Mathlib.Data.List.Basic
import GoExperiments.Lib.Runs

/-!
# The table of upstream servers

The model of the upstream bookkeeping of `jojo/jojo.go`.  The table says twice
which servers are in use: by the `offline` flag of each server, and by the list
`live` that queries are spread over.  Four functions maintain it.

* `parseUpstreamServers` — all servers in use, none marked.
* `markFailed` — counts a failure, and takes a server out of use when it has too
  many of them; the last server in use resets the table instead.
* `resetUpstreamServersNoLock` — everything back in use, unless `live` is full.
* `probeUpstreamServers` — rebuilds `live` from one probe a server.  A server that
  fails its probe is left out of `live`, but its flag is *not* set.

The main results are `table_step`, which says exactly when an operation keeps the
two views in agreement, and `table_invariant_iff`, the same for whole runs.
-/

namespace Jojo

open Runs

/-- `UpstreamServer`. -/
structure UpstreamServer where
  addr : String
  failures : UInt64
  offline : Bool
  deriving DecidableEq

/-- `UpstreamServers`, without its lock. -/
structure UpstreamServers where
  servers : List UpstreamServer
  live : List String
  deriving DecidableEq

/-- `strings.Split(s, ",")`. -/
def splitComma : List Char → List (List Char)
  | [] => [[]]
  | c :: cs =>
      if c = ',' then [] :: splitComma cs
      else match splitComma cs with
        | [] => [[c]]
        | f :: fs => (c :: f) :: fs

/-- `parseUpstreamServers`. -/
def parseUpstreamServers (str : String) : UpstreamServers :=
  let addrs := (splitComma str.toList).map String.ofList
  ⟨addrs.map fun addr => ⟨addr, 0, false⟩, addrs⟩

/-! ## The operations -/

/-- The first loop of `markFailed`: count a failure of the first server with the
address.  The second component is true when the function returns from the loop. -/
def countFailure (maxFailures : UInt64) (addr : String) :
    List UpstreamServer → List UpstreamServer × Bool
  | [] => ([], false)
  | server :: rest =>
      if server.addr ≠ addr then
        (server :: (countFailure maxFailures addr rest).1, (countFailure maxFailures addr rest).2)
      else if server.offline then (server :: rest, true)
      else ({ server with failures := server.failures + 1 } :: rest,
        decide (server.failures + 1 < maxFailures))

/-- The flags after the second loop of `markFailed`. -/
def takeOffline (addr : String) (servers : List UpstreamServer) : List UpstreamServer :=
  servers.map fun server => if server.addr = addr then { server with offline := true } else server

/-- The new `live` of the second loop of `markFailed`. -/
def liveWithout (addr : String) (servers : List UpstreamServer) : List String :=
  (servers.filter fun server => decide (server.addr ≠ addr) && !server.offline).map
    UpstreamServer.addr

/-- The servers after a reset. -/
def resetAll (servers : List UpstreamServer) : List UpstreamServer :=
  servers.map fun server => { server with failures := 0, offline := false }

/-- `resetUpstreamServersNoLock`: nothing to do when as many servers are live as
there are. -/
def resetUpstreamServersNoLock (t : UpstreamServers) : UpstreamServers :=
  if t.servers.length = t.live.length then t
  else ⟨resetAll t.servers, t.servers.map UpstreamServer.addr⟩

/-- `markFailed`. -/
def markFailed (maxFailures : UInt64) (t : UpstreamServers) (addr : String) : UpstreamServers :=
  let servers := (countFailure maxFailures addr t.servers).1
  if (countFailure maxFailures addr t.servers).2 then { t with servers := servers }
  else if t.live.length ≤ 1 then resetUpstreamServersNoLock { t with servers := servers }
  else ⟨takeOffline addr servers, liveWithout addr servers⟩

/-- A server that is in use and has failures is not probed. -/
def assumedOnline (server : UpstreamServer) : Bool :=
  !server.offline && decide (0 < server.failures)

/-- A server after a probe that got an answer in time. -/
def UpstreamServer.working (server : UpstreamServer) : UpstreamServer :=
  { server with offline := false, failures := 0 }

/-- The loop of `probeUpstreamServers`.  `ok i` says whether the probe of server
`i` is answered in time, should it be made. -/
def probeLoop : List UpstreamServer → (ℕ → Bool) → List UpstreamServer × List String
  | [], _ => ([], [])
  | server :: rest, ok =>
      let tail := probeLoop rest fun i => ok (i + 1)
      if assumedOnline server then (server :: tail.1, server.addr :: tail.2)
      else if ok 0 then (server.working :: tail.1, server.addr :: tail.2)
      else (server :: tail.1, tail.2)

/-- `probeUpstreamServers`, when nothing else happens meanwhile. -/
def probeUpstreamServers (t : UpstreamServers) (ok : ℕ → Bool) : UpstreamServers :=
  ⟨(probeLoop t.servers ok).1, (probeLoop t.servers ok).2⟩

/-! ## Flags and addresses -/

/-- The addresses of the servers that are not offline, in configuration order. -/
def onlineAddrs (servers : List UpstreamServer) : List String :=
  (servers.filter fun server => !server.offline).map UpstreamServer.addr

theorem onlineAddrs_cons (server : UpstreamServer) (rest : List UpstreamServer) :
    onlineAddrs (server :: rest) =
      if server.offline then onlineAddrs rest else server.addr :: onlineAddrs rest := by
  cases h : server.offline <;> simp [onlineAddrs, h]

theorem mem_onlineAddrs {servers : List UpstreamServer} {a : String} :
    a ∈ onlineAddrs servers ↔ ∃ server ∈ servers, server.addr = a ∧ server.offline = false := by
  simp only [onlineAddrs, List.mem_map, List.mem_filter, Bool.not_eq_true']
  constructor
  · rintro ⟨server, ⟨hmem, hoff⟩, haddr⟩
    exact ⟨server, hmem, haddr, hoff⟩
  · rintro ⟨server, hmem, haddr, hoff⟩
    exact ⟨server, ⟨hmem, hoff⟩, haddr⟩

/-- Counting a failure touches no flag. -/
theorem onlineAddrs_countFailure (maxFailures : UInt64) (addr : String)
    (servers : List UpstreamServer) :
    onlineAddrs (countFailure maxFailures addr servers).1 = onlineAddrs servers := by
  induction servers with
  | nil => rfl
  | cons server rest ih =>
      rw [countFailure]
      split
      · rw [onlineAddrs_cons, onlineAddrs_cons, ih]
      · split
        · rfl
        · rw [onlineAddrs_cons, onlineAddrs_cons]

theorem addrs_countFailure (maxFailures : UInt64) (addr : String) (servers : List UpstreamServer) :
    (countFailure maxFailures addr servers).1.map UpstreamServer.addr =
      servers.map UpstreamServer.addr := by
  induction servers with
  | nil => rfl
  | cons server rest ih =>
      rw [countFailure]
      split
      · rw [List.map_cons, List.map_cons, ih]
      · split <;> rfl

/-- The list the second loop of `markFailed` builds agrees with the flags it
leaves. -/
theorem liveWithout_eq (addr : String) (servers : List UpstreamServer) :
    liveWithout addr servers = onlineAddrs (takeOffline addr servers) := by
  induction servers with
  | nil => rfl
  | cons server rest ih =>
      simp only [liveWithout, takeOffline, List.map_cons] at ih ⊢
      rw [onlineAddrs_cons, ← ih]
      by_cases haddr : server.addr = addr
      · simp [haddr]
      · cases hoff : server.offline <;> simp [haddr, hoff]

theorem onlineAddrs_resetAll (servers : List UpstreamServer) :
    onlineAddrs (resetAll servers) = servers.map UpstreamServer.addr := by
  induction servers with
  | nil => rfl
  | cons server rest ih =>
      rw [resetAll, List.map_cons, ← resetAll, onlineAddrs_cons, ih]
      simp

theorem addrs_takeOffline (addr : String) (servers : List UpstreamServer) :
    (takeOffline addr servers).map UpstreamServer.addr = servers.map UpstreamServer.addr := by
  rw [takeOffline, List.map_map]
  refine List.map_congr_left fun server _ => ?_
  simp only [Function.comp_apply]
  split <;> rfl

theorem addrs_resetAll (servers : List UpstreamServer) :
    (resetAll servers).map UpstreamServer.addr = servers.map UpstreamServer.addr := by
  rw [resetAll, List.map_map]
  rfl

theorem mem_liveWithout {addr a : String} {servers : List UpstreamServer} :
    a ∈ liveWithout addr servers ↔ a ∈ onlineAddrs servers ∧ a ≠ addr := by
  simp only [liveWithout, List.mem_map, List.mem_filter, Bool.and_eq_true, decide_eq_true_eq,
    Bool.not_eq_true', mem_onlineAddrs]
  constructor
  · rintro ⟨server, ⟨hmem, hne, hon⟩, rfl⟩
    exact ⟨⟨server, hmem, rfl, hon⟩, hne⟩
  · rintro ⟨⟨server, hmem, rfl, hon⟩, hne⟩
    exact ⟨server, ⟨hmem, hne, hon⟩, rfl⟩

/-- Taking a server out of use adds no address. -/
theorem liveWithout_subset (addr : String) (servers : List UpstreamServer) :
    ∀ a ∈ liveWithout addr servers, a ∈ onlineAddrs servers := by
  intro a ha
  simp only [liveWithout, List.mem_map, List.mem_filter, Bool.and_eq_true, Bool.not_eq_true'] at ha
  obtain ⟨server, ⟨hmem, -, hoff⟩, haddr⟩ := ha
  exact mem_onlineAddrs.2 ⟨server, hmem, haddr, hoff⟩

/-! ## The probe -/

section probeLoop

variable {server : UpstreamServer} {rest : List UpstreamServer} {ok : ℕ → Bool}

theorem assumedOnline_iff :
    assumedOnline server = true ↔ server.offline = false ∧ server.failures ≠ 0 := by
  rw [assumedOnline, Bool.and_eq_true, Bool.not_eq_true', decide_eq_true_eq,
    UInt64.pos_iff_ne_zero]

theorem probeLoop_assumed (h : assumedOnline server = true) :
    probeLoop (server :: rest) ok =
      (server :: (probeLoop rest fun i => ok (i + 1)).1,
        server.addr :: (probeLoop rest fun i => ok (i + 1)).2) := by
  rw [probeLoop, if_pos h]

theorem probeLoop_answered (h : assumedOnline server = false) (hok : ok 0 = true) :
    probeLoop (server :: rest) ok =
      (server.working :: (probeLoop rest fun i => ok (i + 1)).1,
        server.addr :: (probeLoop rest fun i => ok (i + 1)).2) := by
  rw [probeLoop, h, if_neg Bool.false_ne_true, if_pos hok]

theorem probeLoop_missed (h : assumedOnline server = false) (hok : ok 0 = false) :
    probeLoop (server :: rest) ok =
      (server :: (probeLoop rest fun i => ok (i + 1)).1,
        (probeLoop rest fun i => ok (i + 1)).2) := by
  rw [probeLoop, h, hok, if_neg Bool.false_ne_true, if_neg Bool.false_ne_true]

end probeLoop

/-- A pass puts in `live` only what it leaves in use. -/
theorem probeLoop_sublist (servers : List UpstreamServer) (ok : ℕ → Bool) :
    (probeLoop servers ok).2.Sublist (onlineAddrs (probeLoop servers ok).1) := by
  induction servers generalizing ok with
  | nil => exact List.Sublist.refl _
  | cons server rest ih =>
      have hrest := ih fun i => ok (i + 1)
      cases hassumed : assumedOnline server with
      | true =>
          rw [probeLoop_assumed hassumed, onlineAddrs_cons, (assumedOnline_iff.1 hassumed).1]
          exact hrest.cons_cons _
      | false =>
          cases hok : ok 0 with
          | true =>
              rw [probeLoop_answered hassumed hok, onlineAddrs_cons]
              exact hrest.cons_cons _
          | false =>
              rw [probeLoop_missed hassumed hok, onlineAddrs_cons]
              split
              · exact hrest
              · exact hrest.cons _

/-- A pass never puts more servers in `live` than are flagged in use after it. -/
theorem length_probeLoop_le (servers : List UpstreamServer) (ok : ℕ → Bool) :
    (probeLoop servers ok).2.length ≤ (onlineAddrs (probeLoop servers ok).1).length :=
  (probeLoop_sublist servers ok).length_le

theorem addrs_probeLoop (servers : List UpstreamServer) (ok : ℕ → Bool) :
    (probeLoop servers ok).1.map UpstreamServer.addr = servers.map UpstreamServer.addr := by
  induction servers generalizing ok with
  | nil => rfl
  | cons server rest ih =>
      cases hassumed : assumedOnline server with
      | true => rw [probeLoop_assumed hassumed, List.map_cons, List.map_cons, ih]
      | false =>
          cases hok : ok 0 with
          | true =>
              rw [probeLoop_answered hassumed hok, List.map_cons, List.map_cons, ih]
              rfl
          | false => rw [probeLoop_missed hassumed hok, List.map_cons, List.map_cons, ih]

theorem length_probeLoop (servers : List UpstreamServer) (ok : ℕ → Bool) :
    (probeLoop servers ok).1.length = servers.length := by
  simpa using congrArg List.length (addrs_probeLoop servers ok)

/-- The probe of a server that is in use and has no failures is answered. -/
def ProbesAnswered (servers : List UpstreamServer) (ok : ℕ → Bool) : Prop :=
  ∀ i server, servers[i]? = some server → server.offline = false → server.failures = 0 →
    ok i = true

theorem probesAnswered_cons {server : UpstreamServer} {rest : List UpstreamServer} {ok : ℕ → Bool} :
    ProbesAnswered (server :: rest) ok ↔
      (server.offline = false → server.failures = 0 → ok 0 = true) ∧
        ProbesAnswered rest fun i => ok (i + 1) := by
  constructor
  · intro h
    exact ⟨fun hoff hfail => h 0 server rfl hoff hfail,
      fun i s hi hoff hfail => h (i + 1) s (by simpa using hi) hoff hfail⟩
  · rintro ⟨h0, hrest⟩ i s hi hoff hfail
    cases i with
    | zero =>
        simp only [List.getElem?_cons_zero, Option.some.injEq] at hi
        subst hi
        exact h0 hoff hfail
    | succ i => exact hrest i s (by simpa using hi) hoff hfail

/-- **When a pass leaves list and flags in agreement**: exactly when no server
that is in use without failures misses its probe. -/
theorem probeLoop_agrees (servers : List UpstreamServer) (ok : ℕ → Bool) :
    (probeLoop servers ok).2 = onlineAddrs (probeLoop servers ok).1 ↔
      ProbesAnswered servers ok := by
  induction servers generalizing ok with
  | nil => exact iff_of_true rfl fun i server hi => absurd hi (by simp)
  | cons server rest ih =>
      rw [probesAnswered_cons, ← ih fun i => ok (i + 1)]
      cases hassumed : assumedOnline server with
      | true =>
          obtain ⟨hoff, hfail⟩ := assumedOnline_iff.1 hassumed
          rw [probeLoop_assumed hassumed, onlineAddrs_cons, hoff]
          simp [hfail]
      | false =>
          cases hok : ok 0 with
          | true =>
              rw [probeLoop_answered hassumed hok, onlineAddrs_cons]
              simp [UpstreamServer.working]
          | false =>
              rw [probeLoop_missed hassumed hok, onlineAddrs_cons]
              cases hoff : server.offline with
              | true => simp
              | false =>
                  -- in use, without failures, and its probe was missed: `live` is too short
                  have hfail : server.failures = 0 := by
                    by_contra hne
                    rw [assumedOnline_iff.2 ⟨hoff, hne⟩] at hassumed
                    exact absurd hassumed (by simp)
                  have hlen := length_probeLoop_le rest fun i => ok (i + 1)
                  refine iff_of_false (fun heq => ?_) fun h => absurd (h.1 rfl hfail) (by simp)
                  rw [heq] at hlen
                  exact absurd hlen (by simp)

/-- A server a pass puts in `live` was assumed to be online or answered its probe. -/
theorem mem_probeLoop {servers : List UpstreamServer} {ok : ℕ → Bool} {a : String}
    (ha : a ∈ (probeLoop servers ok).2) :
    a ∈ onlineAddrs servers ∨ ∃ i server, servers[i]? = some server ∧ server.addr = a ∧
      ok i = true := by
  induction servers generalizing ok with
  | nil => exact absurd ha (by simp [probeLoop])
  | cons server rest ih =>
      have htail : a ∈ (probeLoop rest fun i => ok (i + 1)).2 →
          a ∈ onlineAddrs (server :: rest) ∨ ∃ i s, (server :: rest)[i]? = some s ∧ s.addr = a ∧
            ok i = true := by
        intro hmem
        rcases ih hmem with honline | ⟨i, s, hi, haddr, hoki⟩
        · left
          rw [onlineAddrs_cons]
          split
          · exact honline
          · exact List.mem_cons_of_mem _ honline
        · exact Or.inr ⟨i + 1, s, by simpa using hi, haddr, hoki⟩
      cases hassumed : assumedOnline server with
      | true =>
          rw [probeLoop_assumed hassumed] at ha
          rcases List.mem_cons.1 ha with rfl | hmem
          · exact Or.inl (mem_onlineAddrs.2
              ⟨server, List.mem_cons_self .., rfl, (assumedOnline_iff.1 hassumed).1⟩)
          · exact htail hmem
      | false =>
          cases hok : ok 0 with
          | true =>
              rw [probeLoop_answered hassumed hok] at ha
              rcases List.mem_cons.1 ha with rfl | hmem
              · exact Or.inr ⟨0, server, rfl, rfl, hok⟩
              · exact htail hmem
          | false =>
              rw [probeLoop_missed hassumed hok] at ha
              exact htail ha

/-! ## The two views of the table -/

/-- `live` lists the servers whose flag says they are in use, in order. -/
def Agrees (t : UpstreamServers) : Prop := t.live = onlineAddrs t.servers

/-- Every server is back in use. -/
def FullReset (t : UpstreamServers) : Prop :=
  t.live = t.servers.map UpstreamServer.addr ∧
    ∀ server ∈ t.servers, server.offline = false ∧ server.failures = 0

theorem agrees_parse (str : String) : Agrees (parseUpstreamServers str) := by
  have h : ∀ addrs : List String,
      addrs = onlineAddrs (addrs.map fun addr => (⟨addr, 0, false⟩ : UpstreamServer)) := by
    intro addrs
    induction addrs with
    | nil => rfl
    | cons addr rest ih => rw [List.map_cons, onlineAddrs_cons, ← ih]; simp
  exact h _

/-- What a reset does. -/
theorem reset_cases (t : UpstreamServers) :
    resetUpstreamServersNoLock t = t ∨
      resetUpstreamServersNoLock t = ⟨resetAll t.servers, t.servers.map UpstreamServer.addr⟩ := by
  rw [resetUpstreamServersNoLock]
  split
  · exact Or.inl rfl
  · exact Or.inr rfl

theorem fullReset_resetAll (servers : List UpstreamServer) :
    FullReset ⟨resetAll servers, servers.map UpstreamServer.addr⟩ := by
  constructor
  · simp [resetAll]
  · intro server hmem
    obtain ⟨s, -, rfl⟩ := List.mem_map.1 hmem
    exact ⟨rfl, rfl⟩

theorem agrees_resetAll (servers : List UpstreamServer) :
    Agrees ⟨resetAll servers, servers.map UpstreamServer.addr⟩ :=
  (onlineAddrs_resetAll servers).symm

theorem agrees_reset {t : UpstreamServers} (h : Agrees t) :
    Agrees (resetUpstreamServersNoLock t) := by
  rcases reset_cases t with heq | heq
  · rwa [heq]
  · rw [heq]
    exact agrees_resetAll t.servers

/-- `markFailed` goes on to rebuild the table from its flags. -/
def TakesOffline (maxFailures : UInt64) (t : UpstreamServers) (addr : String) : Prop :=
  (countFailure maxFailures addr t.servers).2 = false ∧ 1 < t.live.length

/-- What `markFailed` does. -/
theorem markFailed_cases (maxFailures : UInt64) (t : UpstreamServers) (addr : String) :
    let servers := (countFailure maxFailures addr t.servers).1
    markFailed maxFailures t addr = { t with servers := servers } ∨
      markFailed maxFailures t addr = ⟨resetAll servers, servers.map UpstreamServer.addr⟩ ∨
      TakesOffline maxFailures t addr ∧
        markFailed maxFailures t addr = ⟨takeOffline addr servers, liveWithout addr servers⟩ := by
  intro servers
  rw [markFailed]
  split
  · exact Or.inl rfl
  · rename_i hcount
    split
    · rcases reset_cases { t with servers := servers } with heq | heq
      · exact Or.inl heq
      · exact Or.inr (Or.inl heq)
    · rename_i hlive
      exact Or.inr (Or.inr ⟨⟨by simpa using hcount, by omega⟩, rfl⟩)

theorem markFailed_of_takesOffline {maxFailures : UInt64} {t : UpstreamServers} {addr : String}
    (h : TakesOffline maxFailures t addr) :
    markFailed maxFailures t addr =
      ⟨takeOffline addr (countFailure maxFailures addr t.servers).1,
        liveWithout addr (countFailure maxFailures addr t.servers).1⟩ := by
  rw [markFailed, h.1, if_neg Bool.false_ne_true, if_neg (Nat.not_le.2 h.2)]

theorem agrees_markFailed {maxFailures : UInt64} {t : UpstreamServers} {addr : String}
    (h : Agrees t) : Agrees (markFailed maxFailures t addr) := by
  rcases markFailed_cases maxFailures t addr with heq | heq | ⟨-, heq⟩ <;> rw [heq]
  · exact h.trans (onlineAddrs_countFailure maxFailures addr t.servers).symm
  · exact agrees_resetAll _
  · exact liveWithout_eq addr _

/-! ## Runs -/

/-- The operations on the table, one at a time. -/
inductive TableOp where
  | probe (ok : ℕ → Bool)
  | markFailed (addr : String)
  | reset

/-- What an operation makes of the table. -/
def applyOp (maxFailures : UInt64) (t : UpstreamServers) : TableOp → UpstreamServers
  | .probe ok => probeUpstreamServers t ok
  | .markFailed addr => markFailed maxFailures t addr
  | .reset => resetUpstreamServersNoLock t

/-- An operation on an address that is in the table. -/
def Configured (t : UpstreamServers) : TableOp → Prop
  | .markFailed addr => addr ∈ t.servers.map UpstreamServer.addr
  | .probe _ | .reset => True

instance (t : UpstreamServers) (op : TableOp) : Decidable (Configured t op) :=
  match op with
  | .markFailed addr => inferInstanceAs (Decidable (addr ∈ t.servers.map UpstreamServer.addr))
  | .probe _ | .reset => inferInstanceAs (Decidable True)

/-- One operation.  Only configured addresses are ever marked as failed. -/
def tableStep (maxFailures : UInt64) (t : UpstreamServers) (op : TableOp) :
    Option UpstreamServers :=
  if Configured t op then some (applyOp maxFailures t op) else none

/-- A probe pass in which no server that is in use without failures misses its
probe; the other operations need nothing. -/
def ProbeSafe (t : UpstreamServers) : TableOp → Prop
  | .probe ok => ProbesAnswered t.servers ok
  | .markFailed _ => True
  | .reset => True

/-- A server that comes back to `live` answered a probe, or everything was reset. -/
def ReturnsProbed (maxFailures : UInt64) (t : UpstreamServers) (op : TableOp) : Prop :=
  ∀ t', tableStep maxFailures t op = some t' → ∀ a ∈ t'.live, a ∉ t.live →
    (∃ ok i server, op = .probe ok ∧ t.servers[i]? = some server ∧ server.addr = a ∧
      ok i = true) ∨ FullReset t'

theorem applyOp_of_tableStep {maxFailures : UInt64} {t t' : UpstreamServers} {op : TableOp}
    (h : tableStep maxFailures t op = some t') : applyOp maxFailures t op = t' := by
  unfold tableStep at h
  split_ifs at h
  exact Option.some.inj h

/-- **One operation.**  From a table whose two views agree, an operation leads to
one whose views agree exactly when it is `ProbeSafe`. -/
theorem table_step {maxFailures : UInt64} {t t' : UpstreamServers} {op : TableOp}
    (h : Agrees t) (hstep : tableStep maxFailures t op = some t') :
    Agrees t' ↔ ProbeSafe t op := by
  obtain rfl := applyOp_of_tableStep hstep
  cases op with
  | probe ok => exact probeLoop_agrees t.servers ok
  | markFailed addr => exact iff_of_true (agrees_markFailed h) trivial
  | reset => exact iff_of_true (agrees_reset h) trivial

/-- From a table whose two views agree, no server comes back unprobed. -/
theorem returnsProbed_of_agrees {maxFailures : UInt64} {t : UpstreamServers} (op : TableOp)
    (h : Agrees t) : ReturnsProbed maxFailures t op := by
  intro t' hstep a ha hnot
  obtain rfl := applyOp_of_tableStep hstep
  cases op with
  | probe ok =>
      rcases mem_probeLoop ha with honline | ⟨i, server, hi, haddr, hok⟩
      · rw [← h] at honline
        exact absurd honline hnot
      · exact Or.inl ⟨ok, i, server, rfl, hi, haddr, hok⟩
  | markFailed addr =>
      rw [applyOp] at ha ⊢
      rcases markFailed_cases maxFailures t addr with heq | heq | ⟨-, heq⟩ <;> rw [heq] at ha ⊢
      · exact absurd ha hnot
      · exact Or.inr (fullReset_resetAll _)
      · have honline := liveWithout_subset addr _ a ha
        rw [onlineAddrs_countFailure, ← h] at honline
        exact absurd honline hnot
  | reset =>
      rw [applyOp] at ha ⊢
      rcases reset_cases t with heq | heq <;> rw [heq] at ha ⊢
      · exact absurd ha hnot
      · exact Or.inr (fullReset_resetAll _)

/-- **The table invariant.**  In a run from a freshly parsed table, the live list
is that of the servers not flagged offline in every state, and no server comes
back unprobed, exactly when every probe pass of the run is `ProbeSafe`. -/
theorem table_invariant_iff (maxFailures : UInt64) (str : String) (ops : List TableOp) :
    (Always (tableStep maxFailures) Agrees (parseUpstreamServers str) ops ∧
      EachStep (tableStep maxFailures) (ReturnsProbed maxFailures) (parseUpstreamServers str)
        ops) ↔
      EachStep (tableStep maxFailures) ProbeSafe (parseUpstreamServers str) ops := by
  have hiff : Always (tableStep maxFailures) Agrees (parseUpstreamServers str) ops ↔
      EachStep (tableStep maxFailures) ProbeSafe (parseUpstreamServers str) ops :=
    always_iff_eachStep (fun _ => True) trivial (agrees_parse str) (fun _ _ _ _ _ => trivial)
      fun _ _ _ _ h hstep => table_step h hstep
  rw [← hiff]
  refine ⟨fun h => h.1, fun h => ⟨h, ?_⟩⟩
  exact fun pre op post t _ hsplit hrun _ =>
    returnsProbed_of_agrees op (h pre (op :: post) t hsplit hrun)

instance (t : UpstreamServers) : Decidable (Agrees t) :=
  inferInstanceAs (Decidable (t.live = onlineAddrs t.servers))

/-- **A failed probe does not stick.**  Three servers, and one failure is enough to
be taken offline.  The first server misses its probe: it leaves `live` with its
flag unset, and is back in `live` as soon as the third server fails. -/
theorem missed_probe_forgotten :
    let start := parseUpstreamServers "a,b,c"
    let probed := probeUpstreamServers start fun i => i != 0
    run (tableStep 1) start [.probe fun i => i != 0] = some probed ∧
      probed.live = ["b", "c"] ∧ ¬ Agrees probed ∧
      run (tableStep 1) start [.probe fun i => i != 0, .markFailed "c"] =
        some (markFailed 1 probed "c") ∧
      (markFailed 1 probed "c").live = ["a", "b"] ∧ ¬ FullReset (markFailed 1 probed "c") := by
  refine ⟨rfl, by decide +kernel, by decide +kernel, by decide +kernel, by decide +kernel, ?_⟩
  intro hreset
  exact absurd hreset.1 (by decide +kernel)

end Jojo
