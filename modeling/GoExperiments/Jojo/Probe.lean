import GoExperiments.Jojo.Upstream

/-!
# A probe pass and failures that happen meanwhile

`probeUpstreamServers` holds the lock of the table only to take its snapshot and
to publish the list it has gathered.  The snapshot is a slice, so what it writes
in between goes straight to the servers of the table, next to the `markFailed`
calls of the resolver threads.  Here a pass is a sequence of small steps, and
`markFailed` may come between any two of them.

* `run_pass` — a pass nothing interrupts is `probeUpstreamServers`.
* `PassInv`, `passInv_step` — every live address, and every address the pass is
  going to publish, is that of a server in use.  A step keeps this unless it takes
  a server offline that the pass is going to publish.
* `finish_pass` — after such a step the pass can end with an offline server live.
* `published_online_iff` — so these steps are exactly the ones to exclude.
-/

namespace Jojo

open Runs

/-- Where a pass is in the body of its loop; `server` is the loop's own copy. -/
inductive Stage where
  /-- Before the next server is read. -/
  | head
  /-- In `udpClient.Exchange`. -/
  | exchange (server : UpstreamServer)
  /-- Between `offline = false` and `failures = 0`. -/
  | clear (server : UpstreamServer)
  deriving DecidableEq

/-- A pass: the loop's index, where it is, and the list gathered so far. -/
structure Pass where
  next : ℕ
  stage : Stage
  live : List String
  deriving DecidableEq

/-- The table, and the pass in progress. -/
structure Probing where
  table : UpstreamServers
  pass : Option Pass
  deriving DecidableEq

/-- The steps of a pass, and a failure. -/
inductive PassAction where
  /-- The snapshot. -/
  | start
  /-- The loop reads the next server. -/
  | read
  /-- The exchange returns; `ok` says whether in time and without an error. -/
  | exchanged (ok : Bool)
  /-- `failures = 0`, and the address is appended. -/
  | cleared
  /-- The gathered list is published. -/
  | publish
  /-- A resolver thread calls `markFailed`. -/
  | markFailed (addr : String)
  deriving DecidableEq

/-- `servers[i].offline = false`. -/
def setOnline (i : ℕ) (servers : List UpstreamServer) : List UpstreamServer :=
  servers.modify i fun server => { server with offline := false }

/-- `servers[i].failures = 0`. -/
def clearFailures (i : ℕ) (servers : List UpstreamServer) : List UpstreamServer :=
  servers.modify i fun server => { server with failures := 0 }

/-- One step. -/
def passStep (maxFailures : UInt64) (c : Probing) : PassAction → Option Probing
  | .start => match c.pass with
      | none => some { c with pass := some ⟨0, .head, []⟩ }
      | some _ => none
  | .read => match c.pass with
      | some ⟨i, .head, live⟩ => match c.table.servers[i]? with
          | some server =>
              if assumedOnline server then
                some { c with pass := some ⟨i + 1, .head, live ++ [server.addr]⟩ }
              else some { c with pass := some ⟨i, .exchange server, live⟩ }
          | none => none
      | _ => none
  | .exchanged ok => match c.pass with
      | some ⟨i, .exchange server, live⟩ =>
          if ok then
            some ⟨{ c.table with servers := setOnline i c.table.servers },
              some ⟨i, .clear server, live⟩⟩
          else some { c with pass := some ⟨i + 1, .head, live⟩ }
      | _ => none
  | .cleared => match c.pass with
      | some ⟨i, .clear server, live⟩ =>
          some ⟨{ c.table with servers := clearFailures i c.table.servers },
            some ⟨i + 1, .head, live ++ [server.addr]⟩⟩
      | _ => none
  | .publish => match c.pass with
      | some ⟨i, .head, live⟩ =>
          if c.table.servers[i]? = none then some ⟨{ c.table with live := live }, none⟩ else none
      | _ => none
  | .markFailed addr =>
      if addr ∈ c.table.servers.map UpstreamServer.addr then
        some { c with table := markFailed maxFailures c.table addr }
      else none

/-- What a step can do. -/
inductive PassStepped (maxFailures : UInt64) : Probing → PassAction → Probing → Prop
  | start (t : UpstreamServers) :
      PassStepped maxFailures ⟨t, none⟩ .start ⟨t, some ⟨0, .head, []⟩⟩
  | assumed (t : UpstreamServers) {i : ℕ} (live : List String) {server : UpstreamServer}
      (hi : t.servers[i]? = some server) (h : assumedOnline server = true) :
      PassStepped maxFailures ⟨t, some ⟨i, .head, live⟩⟩ .read
        ⟨t, some ⟨i + 1, .head, live ++ [server.addr]⟩⟩
  | probing (t : UpstreamServers) {i : ℕ} (live : List String) {server : UpstreamServer}
      (hi : t.servers[i]? = some server) (h : assumedOnline server = false) :
      PassStepped maxFailures ⟨t, some ⟨i, .head, live⟩⟩ .read
        ⟨t, some ⟨i, .exchange server, live⟩⟩
  | answered (t : UpstreamServers) (i : ℕ) (server : UpstreamServer) (live : List String) :
      PassStepped maxFailures ⟨t, some ⟨i, .exchange server, live⟩⟩ (.exchanged true)
        ⟨{ t with servers := setOnline i t.servers }, some ⟨i, .clear server, live⟩⟩
  | missed (t : UpstreamServers) (i : ℕ) (server : UpstreamServer) (live : List String) :
      PassStepped maxFailures ⟨t, some ⟨i, .exchange server, live⟩⟩ (.exchanged false)
        ⟨t, some ⟨i + 1, .head, live⟩⟩
  | cleared (t : UpstreamServers) (i : ℕ) (server : UpstreamServer) (live : List String) :
      PassStepped maxFailures ⟨t, some ⟨i, .clear server, live⟩⟩ .cleared
        ⟨{ t with servers := clearFailures i t.servers },
          some ⟨i + 1, .head, live ++ [server.addr]⟩⟩
  | publish (t : UpstreamServers) {i : ℕ} (live : List String) (hi : t.servers[i]? = none) :
      PassStepped maxFailures ⟨t, some ⟨i, .head, live⟩⟩ .publish ⟨{ t with live := live }, none⟩
  | markFailed (t : UpstreamServers) (pass : Option Pass) {addr : String}
      (h : addr ∈ t.servers.map UpstreamServer.addr) :
      PassStepped maxFailures ⟨t, pass⟩ (.markFailed addr) ⟨markFailed maxFailures t addr, pass⟩

theorem passStepped_of_passStep {maxFailures : UInt64} {c c' : Probing} {a : PassAction}
    (h : passStep maxFailures c a = some c') : PassStepped maxFailures c a c' := by
  obtain ⟨t, pass⟩ := c
  cases a with
  | start =>
      simp only [passStep] at h
      split at h
      · cases h; exact .start t
      · exact absurd h (by simp)
  | read =>
      simp only [passStep] at h
      split at h
      · split at h
        · rename_i hi
          split at h
          · rename_i hassumed
            cases h; exact .assumed t _ hi hassumed
          · rename_i hassumed
            cases h; exact .probing t _ hi (by simpa using hassumed)
        · exact absurd h (by simp)
      · exact absurd h (by simp)
  | exchanged ok =>
      simp only [passStep] at h
      split at h
      · cases ok with
        | true => cases h; exact .answered t _ _ _
        | false => cases h; exact .missed t _ _ _
      · exact absurd h (by simp)
  | cleared =>
      simp only [passStep] at h
      split at h
      · cases h; exact .cleared t _ _ _
      · exact absurd h (by simp)
  | publish =>
      simp only [passStep] at h
      split at h
      · split at h
        · rename_i hi
          cases h; exact .publish t _ hi
        · exact absurd h (by simp)
      · exact absurd h (by simp)
  | markFailed addr =>
      simp only [passStep] at h
      split at h
      · rename_i haddr
        cases h; exact .markFailed t pass haddr
      · exact absurd h (by simp)

theorem passStep_of_passStepped {maxFailures : UInt64} {c c' : Probing} {a : PassAction}
    (h : PassStepped maxFailures c a c') : passStep maxFailures c a = some c' := by
  cases h with
  | assumed t live hi hassumed => simp [passStep, hi, hassumed]
  | probing t live hi hassumed => simp [passStep, hi, hassumed]
  | publish t live hi => simp [passStep, hi]
  | markFailed t pass haddr => exact if_pos haddr
  | start | answered | missed | cleared => rfl

/-! ## A pass that nothing interrupts -/

/-- The steps of a pass over the given servers. -/
def passActions : List UpstreamServer → (ℕ → Bool) → List PassAction
  | [], _ => []
  | server :: rest, ok =>
      (if assumedOnline server then [.read]
        else if ok 0 then [.read, .exchanged true, .cleared]
        else [.read, .exchanged false]) ++ passActions rest fun i => ok (i + 1)

theorem modify_length_append (done : List UpstreamServer) (server : UpstreamServer)
    (rest : List UpstreamServer) (f : UpstreamServer → UpstreamServer) :
    (done ++ server :: rest).modify done.length f = done ++ f server :: rest := by
  induction done with
  | nil => rfl
  | cons first done ih => simp [ih]

theorem run_passActions (maxFailures : UInt64) (done rest : List UpstreamServer) (ok : ℕ → Bool)
    (old live : List String) :
    run (passStep maxFailures) ⟨⟨done ++ rest, old⟩, some ⟨done.length, .head, live⟩⟩
        (passActions rest ok) =
      some ⟨⟨done ++ (probeLoop rest ok).1, old⟩,
        some ⟨done.length + rest.length, .head, live ++ (probeLoop rest ok).2⟩⟩ := by
  induction rest generalizing done ok live with
  | nil => simp [passActions, probeLoop]
  | cons server rest ih =>
      -- what is left to do once this server is done with, as `server'`
      have hnext : ∀ server' live', run (passStep maxFailures)
          ⟨⟨done ++ server' :: rest, old⟩, some ⟨done.length + 1, .head, live'⟩⟩
            (passActions rest fun i => ok (i + 1)) =
          some ⟨⟨done ++ server' :: (probeLoop rest fun i => ok (i + 1)).1, old⟩,
            some ⟨done.length + (rest.length + 1), .head,
              live' ++ (probeLoop rest fun i => ok (i + 1)).2⟩⟩ := by
        intro server' live'
        have h := ih (done ++ [server']) (fun i => ok (i + 1)) live'
        simpa [Nat.add_assoc, Nat.add_comm 1] using h
      have hi : (done ++ server :: rest)[done.length]? = some server := by simp
      rw [passActions, List.length_cons]
      cases hassumed : assumedOnline server with
      | true =>
          rw [probeLoop_assumed hassumed, if_pos rfl, List.singleton_append, run_cons,
            passStep_of_passStepped (.assumed ⟨_, old⟩ live hi hassumed), Option.bind_some, hnext]
          simp
      | false =>
          rw [if_neg Bool.false_ne_true]
          have hread := passStep_of_passStepped
            (.probing ⟨done ++ server :: rest, old⟩ live hi hassumed :
              PassStepped maxFailures _ _ _)
          cases hok : ok 0 with
          | true =>
              rw [probeLoop_answered hassumed hok, if_pos rfl, List.cons_append, run_cons, hread,
                Option.bind_some, List.cons_append, run_cons,
                passStep_of_passStepped (.answered _ _ _ _), Option.bind_some,
                List.singleton_append, run_cons, passStep_of_passStepped (.cleared _ _ _ _),
                Option.bind_some, setOnline, clearFailures, modify_length_append,
                modify_length_append, hnext]
              simp [UpstreamServer.working]
          | false =>
              rw [probeLoop_missed hassumed hok, if_neg Bool.false_ne_true, List.cons_append,
                run_cons, hread, Option.bind_some, List.singleton_append, run_cons,
                passStep_of_passStepped (.missed _ _ _ _), Option.bind_some, hnext]

/-- **A pass that nothing interrupts** is `probeUpstreamServers`. -/
theorem run_pass (maxFailures : UInt64) (t : UpstreamServers) (ok : ℕ → Bool) :
    run (passStep maxFailures) ⟨t, none⟩ (.start :: (passActions t.servers ok ++ [.publish])) =
      some ⟨probeUpstreamServers t ok, none⟩ := by
  have hloop := run_passActions maxFailures [] t.servers ok t.live []
  simp only [List.nil_append, List.length_nil, Nat.zero_add] at hloop
  have hend : (probeLoop t.servers ok).1[t.servers.length]? = none :=
    List.getElem?_eq_none (Nat.le_of_eq (length_probeLoop t.servers ok))
  rw [run_cons, passStep_of_passStepped (.start t), Option.bind_some, run_concat, hloop,
    Option.bind_some, passStep_of_passStepped (.publish _ _ hend)]
  rfl

/-! ## What the writes of a pass and a failure do to the flags -/

theorem onlineAddrs_clearFailures (i : ℕ) (servers : List UpstreamServer) :
    onlineAddrs (clearFailures i servers) = onlineAddrs servers := by
  induction servers generalizing i with
  | nil => simp [clearFailures]
  | cons server rest ih =>
      cases i with
      | zero => rw [onlineAddrs_cons]; exact onlineAddrs_cons _ _
      | succ i =>
          have h := ih i
          simp only [clearFailures, List.modify_succ_cons] at h ⊢
          rw [onlineAddrs_cons, onlineAddrs_cons, h]

/-- Setting a server online adds its address to those in use. -/
theorem mem_onlineAddrs_setOnline {i : ℕ} {servers : List UpstreamServer} {a : String} :
    a ∈ onlineAddrs (setOnline i servers) ↔
      a ∈ onlineAddrs servers ∨ (servers.map UpstreamServer.addr)[i]? = some a := by
  induction servers generalizing i with
  | nil => simp [setOnline]
  | cons server rest ih =>
      cases i with
      | zero =>
          simp only [setOnline, List.modify_zero_cons, onlineAddrs_cons]
          cases server.offline <;> simp [eq_comm, or_comm]
      | succ i =>
          have h := @ih i
          simp only [setOnline, List.modify_succ_cons] at h ⊢
          rw [onlineAddrs_cons, onlineAddrs_cons]
          split
          · simpa using h
          · simp [h, or_assoc]

theorem addrs_markFailed (maxFailures : UInt64) (t : UpstreamServers) (addr : String) :
    (markFailed maxFailures t addr).servers.map UpstreamServer.addr =
      t.servers.map UpstreamServer.addr := by
  rcases markFailed_cases maxFailures t addr with heq | heq | ⟨-, heq⟩ <;> rw [heq]
  · exact addrs_countFailure maxFailures addr t.servers
  · rw [addrs_resetAll, addrs_countFailure]
  · rw [addrs_takeOffline, addrs_countFailure]

/-- A server offline is left out, the others stay. -/
theorem mem_onlineAddrs_takeOffline {addr a : String} {servers : List UpstreamServer} :
    a ∈ onlineAddrs (takeOffline addr servers) ↔ a ∈ onlineAddrs servers ∧ a ≠ addr := by
  rw [← liveWithout_eq]
  exact mem_liveWithout

theorem addr_mem_of_online {servers : List UpstreamServer} {a : String}
    (h : a ∈ onlineAddrs servers) : a ∈ servers.map UpstreamServer.addr := by
  obtain ⟨server, hmem, rfl, -⟩ := mem_onlineAddrs.1 h
  exact List.mem_map_of_mem hmem

/-- An address in use stays so under `markFailed`, unless it is the one taken
offline. -/
theorem online_markFailed {maxFailures : UInt64} {t : UpstreamServers} {addr a : String}
    (h : a ∈ onlineAddrs t.servers) (hne : TakesOffline maxFailures t addr → a ≠ addr) :
    a ∈ onlineAddrs (markFailed maxFailures t addr).servers := by
  rcases markFailed_cases maxFailures t addr with heq | heq | ⟨htakes, heq⟩ <;> rw [heq]
  · rwa [onlineAddrs_countFailure]
  · rw [onlineAddrs_resetAll, addrs_countFailure]
    exact addr_mem_of_online h
  · rw [mem_onlineAddrs_takeOffline, onlineAddrs_countFailure]
    exact ⟨h, hne htakes⟩

/-- What `markFailed` leaves live is in use if it was before. -/
theorem live_markFailed {maxFailures : UInt64} {t : UpstreamServers} {addr : String}
    (h : ∀ a ∈ t.live, a ∈ onlineAddrs t.servers) :
    ∀ a ∈ (markFailed maxFailures t addr).live,
      a ∈ onlineAddrs (markFailed maxFailures t addr).servers := by
  rcases markFailed_cases maxFailures t addr with heq | heq | ⟨-, heq⟩ <;> rw [heq]
  · rwa [onlineAddrs_countFailure]
  · rw [onlineAddrs_resetAll]
    exact fun a ha => ha
  · rw [liveWithout_eq]
    exact fun a ha => ha

/-! ## The invariant -/

/-- The addresses a pass is going to publish, whatever happens. -/
def Pass.committed (p : Pass) : List String :=
  match p.stage with
  | .clear server => p.live ++ [server.addr]
  | _ => p.live

/-- The step does not take a server offline whose address the pass in progress is
going to publish. -/
def NotOverwritten (maxFailures : UInt64) (c : Probing) : PassAction → Prop
  | .markFailed addr => TakesOffline maxFailures c.table addr →
      ∀ p, c.pass = some p → addr ∉ p.committed
  | _ => True

/-- Every live address, and every address that is going to be published, is that of
a server in use; and the loop's copy is of the server it is at. -/
structure PassInv (c : Probing) : Prop where
  live : ∀ a ∈ c.table.live, a ∈ onlineAddrs c.table.servers
  committed : ∀ p, c.pass = some p → ∀ a ∈ p.committed, a ∈ onlineAddrs c.table.servers
  copy : ∀ i server live, c.pass = some ⟨i, .exchange server, live⟩ →
    (c.table.servers.map UpstreamServer.addr)[i]? = some server.addr

theorem passInv_parse (str : String) : PassInv ⟨parseUpstreamServers str, none⟩ := by
  refine ⟨fun a ha => ?_, fun p hp => absurd hp (by simp),
    fun i server live hp => absurd hp (by simp)⟩
  rwa [← (agrees_parse str : _ = onlineAddrs _)]

/-- **One step.**  A step that is `NotOverwritten` keeps the invariant. -/
theorem passInv_step {maxFailures : UInt64} {c c' : Probing} {a : PassAction} (h : PassInv c)
    (hguard : NotOverwritten maxFailures c a) (hstep : passStep maxFailures c a = some c') :
    PassInv c' := by
  cases passStepped_of_passStep hstep with
  | start t => exact ⟨h.live, by rintro p ⟨⟩ a ha; exact absurd ha (by simp [Pass.committed]),
      by rintro i server live ⟨⟩⟩
  | @assumed t i live server hi hassumed =>
      refine ⟨h.live, ?_, by rintro i server live ⟨⟩⟩
      rintro p ⟨⟩ a ha
      rcases List.mem_append.1 ha with hold | hnew
      · exact h.committed _ rfl a hold
      · obtain rfl := List.mem_singleton.1 hnew
        exact mem_onlineAddrs.2
          ⟨server, List.mem_of_getElem? hi, rfl, (assumedOnline_iff.1 hassumed).1⟩
  | @probing t i live server hi hassumed =>
      refine ⟨h.live, ?_, ?_⟩
      · rintro p ⟨⟩ a ha
        exact h.committed _ rfl a ha
      · rintro i server live ⟨⟩
        simp [hi]
  | answered t i server live =>
      refine ⟨fun a ha => mem_onlineAddrs_setOnline.2 (Or.inl (h.live a ha)), ?_,
        by rintro i server live ⟨⟩⟩
      rintro p ⟨⟩ a ha
      rcases List.mem_append.1 ha with hold | hnew
      · exact mem_onlineAddrs_setOnline.2 (Or.inl (h.committed _ rfl a hold))
      · obtain rfl := List.mem_singleton.1 hnew
        exact mem_onlineAddrs_setOnline.2 (Or.inr (h.copy i server live rfl))
  | missed t i server live =>
      refine ⟨h.live, ?_, by rintro i server live ⟨⟩⟩
      rintro p ⟨⟩ a ha
      exact h.committed _ rfl a ha
  | cleared t i server live =>
      refine ⟨?_, ?_, by rintro i server live ⟨⟩⟩
      · simp only [onlineAddrs_clearFailures]
        exact h.live
      · rintro p ⟨⟩ a ha
        simp only [onlineAddrs_clearFailures]
        exact h.committed _ rfl a ha
  | publish t live hi =>
      exact ⟨h.committed _ rfl, fun p hp => absurd hp (by simp),
        fun i server live hp => absurd hp (by simp)⟩
  | @markFailed t pass addr haddr =>
      refine ⟨live_markFailed h.live, ?_, ?_⟩
      · intro p hp a ha
        refine online_markFailed (h.committed p hp a ha) fun htakes heq => ?_
        exact hguard htakes p hp (heq ▸ ha)
      · intro i server live hp
        rw [addrs_markFailed]
        exact h.copy i server live hp

/-! ## How an overwritten failure ends -/

/-- The steps of the pass itself. -/
def PassAction.ofPass : PassAction → Prop
  | .markFailed _ => False
  | _ => True

/-- With no pass in progress, every live address is that of a server in use. -/
def IdleOnline (c : Probing) : Prop :=
  c.pass = none → ∀ a ∈ c.table.live, ∃ server ∈ c.table.servers,
    server.addr = a ∧ server.offline = false

/-- The pass can end, by steps of its own, in a state in which `addr` is live and no
server with that address is in use. -/
def EndsOffline (maxFailures : UInt64) (addr : String) (c : Probing) : Prop :=
  ∃ post c', (∀ a ∈ post, PassAction.ofPass a) ∧ run (passStep maxFailures) c post = some c' ∧
    c'.pass = none ∧ addr ∈ c'.table.live ∧ addr ∉ onlineAddrs c'.table.servers

theorem endsOffline_of_step {maxFailures : UInt64} {addr : String} {c c' : Probing}
    {a : PassAction} (hstep : PassStepped maxFailures c a c') (ha : PassAction.ofPass a)
    (h : EndsOffline maxFailures addr c') : EndsOffline maxFailures addr c := by
  obtain ⟨post, c'', hpost, hrun, hend⟩ := h
  refine ⟨a :: post, c'', List.forall_mem_cons.2 ⟨ha, hpost⟩, ?_, hend⟩
  rw [run_cons, passStep_of_passStepped hstep]
  exact hrun

/-- From the head of the loop, by induction on the servers still to be read: the
probes that are made are missed. -/
theorem endsOffline_head {maxFailures : UInt64} {addr : String} {n : ℕ} {t : UpstreamServers}
    {i : ℕ} {live : List String} (hn : t.servers.length ≤ i + n) (hlive : addr ∈ live)
    (hoff : addr ∉ onlineAddrs t.servers) :
    EndsOffline maxFailures addr ⟨t, some ⟨i, .head, live⟩⟩ := by
  induction n generalizing i live with
  | zero =>
      have hi : t.servers[i]? = none := List.getElem?_eq_none hn
      refine endsOffline_of_step (.publish t live hi) trivial ?_
      exact ⟨[], _, by simp, rfl, rfl, hlive, hoff⟩
  | succ n ih =>
      cases hi : t.servers[i]? with
      | none =>
          refine endsOffline_of_step (.publish t live hi) trivial ?_
          exact ⟨[], _, by simp, rfl, rfl, hlive, hoff⟩
      | some server =>
          cases hassumed : assumedOnline server with
          | true =>
              refine endsOffline_of_step (.assumed t live hi hassumed) trivial ?_
              exact ih (by omega) (List.mem_append_left _ hlive)
          | false =>
              refine endsOffline_of_step (.probing t live hi hassumed) trivial ?_
              refine endsOffline_of_step (.missed t i server live) trivial ?_
              exact ih (by omega) hlive

/-- **An overwritten failure.**  A pass that is going to publish an address no
server in use has can end with that address live. -/
theorem finish_pass {maxFailures : UInt64} {addr : String} {t : UpstreamServers} {p : Pass}
    (hp : addr ∈ p.committed) (hoff : addr ∉ onlineAddrs t.servers) :
    EndsOffline maxFailures addr ⟨t, some p⟩ := by
  obtain ⟨i, stage, live⟩ := p
  cases stage with
  | head => exact endsOffline_head (Nat.le_add_left _ i) hp hoff
  | exchange server =>
      refine endsOffline_of_step (.missed t i server live) trivial ?_
      exact endsOffline_head (Nat.le_add_left _ (i + 1)) hp hoff
  | clear server =>
      refine endsOffline_of_step (.cleared t i server live) trivial ?_
      refine endsOffline_head (Nat.le_add_left _ (i + 1)) hp ?_
      rwa [onlineAddrs_clearFailures]

theorem idleOnline_of_passInv {c : Probing} (h : PassInv c) : IdleOnline c :=
  fun _ a ha => mem_onlineAddrs.1 (h.live a ha)

theorem notOverwritten_of_ofPass {maxFailures : UInt64} {c : Probing} {a : PassAction}
    (h : a.ofPass) : NotOverwritten maxFailures c a := by
  cases a with
  | markFailed addr => exact absurd h id
  | start | read | exchanged | cleared | publish => trivial

/-- **Failures during a probe pass.**  Neither a run nor any way in which its pass
can end from one of its states leads to a state without a pass in which a live
address belongs to no server in use, exactly when every step of the run is
`NotOverwritten`. -/
theorem published_online_iff (maxFailures : UInt64) (str : String) (acts : List PassAction) :
    (∀ pre rest post, acts = pre ++ rest → (∀ a ∈ post, PassAction.ofPass a) →
      Always (passStep maxFailures) IdleOnline ⟨parseUpstreamServers str, none⟩ (pre ++ post)) ↔
      EachStep (passStep maxFailures) (NotOverwritten maxFailures)
        ⟨parseUpstreamServers str, none⟩ acts := by
  constructor
  · intro h pre a rest c c' hsplit hrun hstep
    cases a with
    | markFailed addr =>
        intro htakes p hp hcommitted
        -- the pass ends with the server that is taken offline here live
        obtain ⟨t, pass⟩ := c
        subst hp
        cases passStepped_of_passStep hstep
        have hoff : addr ∉ onlineAddrs (markFailed maxFailures t addr).servers := by
          rw [markFailed_of_takesOffline htakes]
          exact fun hmem => (mem_onlineAddrs_takeOffline.1 hmem).2 rfl
        obtain ⟨post, c', hpost, hrun', hidle, hlive, hoff'⟩ :=
          (finish_pass hcommitted hoff : EndsOffline maxFailures addr _)
        have hall := h (pre ++ [.markFailed addr]) rest post (by rw [hsplit]; simp) hpost
        have hend : run (passStep maxFailures) ⟨parseUpstreamServers str, none⟩
            (pre ++ [.markFailed addr] ++ post) = some c' :=
          run_append_eq_some.2 ⟨_, run_concat_eq_some.2 ⟨_, hrun, hstep⟩, hrun'⟩
        exact hoff' (mem_onlineAddrs.2 (always_final hall hend hidle addr hlive))
    | start | read | exchanged | cleared | publish => trivial
  · intro h pre rest post hsplit hpost
    have hinv : Always (passStep maxFailures) PassInv ⟨parseUpstreamServers str, none⟩
        (pre ++ post) := by
      refine always_of_eachStep (passInv_parse str) (fun _ _ _ => passInv_step) ?_
      rw [hsplit, eachStep_append] at h
      refine eachStep_append.2 ⟨h.1, fun _ _ => eachStep_of_forall fun a ha t => ?_⟩
      exact notOverwritten_of_ofPass (hpost a ha)
    exact fun pre' post' c hsplit' hrun => idleOnline_of_passInv (hinv pre' post' c hsplit' hrun)

/-- **A failure is overwritten.**  Two servers, and one failure is enough to be taken
offline.  The first server answers its probe and then fails for good; the pass goes
on and publishes it again, and it stays live with its flag set. -/
theorem failure_overwritten :
    let acts : List PassAction := [.start, .read, .exchanged true, .cleared, .markFailed "a",
      .read, .exchanged true, .cleared, .publish]
    let last : Probing := ⟨⟨[⟨"a", 1, true⟩, ⟨"b", 0, false⟩], ["a", "b"]⟩, none⟩
    run (passStep 1) ⟨parseUpstreamServers "a,b", none⟩ acts = some last ∧ ¬ IdleOnline last := by
  refine ⟨by decide +kernel, fun h => ?_⟩
  obtain ⟨server, hmem, haddr, hoff⟩ := h rfl "a" (by decide)
  simp only [List.mem_cons, List.not_mem_nil, or_false] at hmem
  rcases hmem with rfl | rfl
  · exact absurd hoff (by decide)
  · exact absurd haddr (by decide)

end Jojo
