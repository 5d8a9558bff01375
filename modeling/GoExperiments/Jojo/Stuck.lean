import GoExperiments.Jojo.Responses

/-!
# Calls that hang

A call that finds the ring full goes on to receive a request from it, without a
second look at the ring.  If the resolver threads empty the ring in between, the
call waits for a request to evict that only another call can bring.

* `stuck_evicting` — this is the only way to hang: in a stuck state some call
  waits for a request to evict.
* `never_stuck_of_room` — so a run in which every call finds room never gets stuck.
* `ring_lt_inProgress` — a call finds fewer requests in the ring than there are
  calls in progress.
* `stuck_of_overload` — with one call more than the ring has places there is a run
  that gets stuck.
* `never_stuck_iff` — the two bounds together.
-/

namespace Jojo

open Runs Census

variable {M : Type}

/-- The steps of calls in progress and of threads: all but the arrival of a call. -/
def RingAction.internal : RingAction M → Prop
  | .call _ _ => False
  | _ => True

/-- Some call has no response, and no call in progress and no thread can move. -/
def Stuck (cfg : RingConfig M) (s : RingState M) : Prop :=
  (∃ c ∈ s.calls, ∀ result, c.pc ≠ .returned result) ∧
    ∀ a : RingAction M, a.internal → ringStep cfg s a = none

/-- The exchanges of `syncResolve` return. -/
def RingConfig.Returns (cfg : RingConfig M) : Prop :=
  ∀ req, ∃ response, cfg.resolves req response = true

/-! ## What can move -/

section enabled

variable {cfg : RingConfig M} {s : RingState M}

theorem ringStep_of_alive (hb : Balanced s) (a : RingAction M) :
    ringStep cfg s a = liveStep cfg s a := by
  rw [ringStep, hb.alive, if_neg Bool.false_ne_true]

theorem select_room (hb : Balanced s) {i : ℕ} {q : QueuedRequest M}
    (hi : s.calls[i]? = some ⟨q, .select⟩) (hroom : s.ring.length < cfg.maxClients) :
    ringStep cfg s (.select i) =
      some { s with ring := s.ring ++ [q], calls := s.calls.set i ⟨q, .wait⟩ } := by
  rw [ringStep_of_alive hb]
  simp only [liveStep, hi, if_pos hroom]

theorem select_full (hb : Balanced s) {i : ℕ} {q : QueuedRequest M}
    (hi : s.calls[i]? = some ⟨q, .select⟩) (hfull : ¬ s.ring.length < cfg.maxClients) :
    ringStep cfg s (.select i) = some { s with calls := s.calls.set i ⟨q, .evict⟩ } := by
  rw [ringStep_of_alive hb]
  simp only [liveStep, hi, if_neg hfull]

/-- A response can be delivered to a call whose request is not yet answered. -/
theorem deliver_of_held {k : ℕ} (hb : Balanced s)
    (hk : 0 < s.inRing k + s.withThreads k + s.withEvictors k) (response : QueuedResponse M) :
    ∃ q, s.calls[k]? = some ⟨q, .wait⟩ ∧ deliver s k response =
      some { s with
        calls := s.calls.set k ⟨q, .returned (resolveResult response)⟩
        sent := (k, response) :: s.sent } := by
  obtain ⟨q, hq⟩ := wait_of_held hb hk
  refine ⟨q, hq, ?_⟩
  rw [deliver, if_neg (open_of_held hb hk), hq]

theorem answer_enabled (hb : Balanced s) {i : ℕ} {q old : QueuedRequest M}
    (hi : s.calls[i]? = some ⟨q, .answer old⟩) : ringStep cfg s (.answer i) ≠ none := by
  obtain ⟨q', -, hdeliver⟩ :=
    deliver_of_held hb (held_of_evictor hi (beq_self_eq_true old.responseChan)) evictedResponse
  rw [ringStep_of_alive hb]
  simp only [liveStep, hi, hdeliver]
  exact Option.some_ne_none _

theorem take_some (cfg : RingConfig M) (hb : Balanced s) {t : ℕ} {q : QueuedRequest M}
    {rest : List (QueuedRequest M)} (ht : s.threads[t]? = some .receive)
    (hring : s.ring = q :: rest) :
    ringStep cfg s (.take t) =
      some { s with ring := rest, threads := s.threads.set t (.check q) } := by
  rw [ringStep_of_alive hb]
  simp only [liveStep, ht, hring]

theorem check_some (cfg : RingConfig M) (hb : Balanced s) {t : ℕ} {q : QueuedRequest M}
    (ht : s.threads[t]? = some (.check q)) (now : ℤ) :
    ringStep cfg s (.check t now) =
      some { s with
        threads := s.threads.set t (if cfg.tooOld (now - q.ts) then .reply q tooOldResponse true
          else .resolve q) } := by
  rw [ringStep_of_alive hb]
  simp only [liveStep, ht]
  split <;> rfl

theorem resolved_some (hb : Balanced s) {t : ℕ} {q : QueuedRequest M}
    {response : QueuedResponse M} (ht : s.threads[t]? = some (.resolve q))
    (hres : cfg.resolves q.req response = true) :
    ringStep cfg s (.resolved t response) =
      some { s with threads := s.threads.set t (.reply q response false) } := by
  rw [ringStep_of_alive hb]
  simp only [liveStep, ht, if_pos hres]

theorem reply_some (cfg : RingConfig M) (hb : Balanced s) {t : ℕ} {q : QueuedRequest M}
    {response : QueuedResponse M} {late : Bool}
    (ht : s.threads[t]? = some (.reply q response late)) :
    ∃ q', s.calls[q.responseChan]? = some ⟨q', .wait⟩ ∧ ringStep cfg s (.reply t) =
      some { s with
        calls := s.calls.set q.responseChan ⟨q', .returned (resolveResult response)⟩
        threads := s.threads.set t (.close q late)
        sent := (q.responseChan, response) :: s.sent } := by
  obtain ⟨q', hq', hdeliver⟩ :=
    deliver_of_held hb (held_of_thread ht (beq_self_eq_true q.responseChan)) response
  refine ⟨q', hq', ?_⟩
  rw [ringStep_of_alive hb]
  simp only [liveStep, ht, hdeliver, Option.map_some]

theorem close_some (hb : Balanced s) {t : ℕ} {q : QueuedRequest M} {late : Bool}
    (ht : s.threads[t]? = some (.close q late)) :
    ringStep cfg s (.close t) =
      some { s with
        threads := s.threads.set t (if late then .addSlip else .receive)
        closed := q.responseChan :: s.closed } := by
  rw [ringStep_of_alive hb]
  simp only [liveStep, ht, if_neg (open_of_closing hb ht)]

theorem addSlip_some (hb : Balanced s) {t : ℕ} (ht : s.threads[t]? = some .addSlip) :
    ringStep cfg s (.addSlip t) =
      some { s with threads := s.threads.set t .receive, slip := s.slip + 1 } := by
  rw [ringStep_of_alive hb]
  simp only [liveStep, ht]

/-- A thread that does not wait for a request can move. -/
theorem thread_enabled (hret : cfg.Returns) (hb : Balanced s) {t : ℕ} {pc : ThreadPc M}
    (ht : s.threads[t]? = some pc) (hpc : pc ≠ .receive) :
    ∃ a : RingAction M, a.internal ∧ ringStep cfg s a ≠ none := by
  cases pc with
  | receive => exact absurd rfl hpc
  | check q => exact ⟨.check t 0, trivial, by simp [check_some cfg hb ht]⟩
  | resolve q =>
      obtain ⟨response, hres⟩ := hret q.req
      exact ⟨.resolved t response, trivial, by simp [resolved_some hb ht hres]⟩
  | reply q response late =>
      obtain ⟨q', -, hreply⟩ := reply_some cfg hb ht
      exact ⟨.reply t, trivial, by simp [hreply]⟩
  | close q late => exact ⟨.close t, trivial, by simp [close_some hb ht]⟩
  | addSlip => exact ⟨.addSlip t, trivial, by simp [addSlip_some hb ht]⟩

/-- **The only way to hang.**  In a stuck state some call waits for a request to
evict. -/
theorem stuck_evicting (hret : cfg.Returns) (hb : Balanced s) (hthreads : 0 < s.threads.length)
    (h : Stuck cfg s) : ∃ c ∈ s.calls, c.pc = .evict := by
  obtain ⟨⟨c, hmem, hpc⟩, hnone⟩ := h
  obtain ⟨i, hi⟩ := List.getElem?_of_mem hmem
  have hthread : ∀ {t : ℕ} {pc : ThreadPc M}, s.threads[t]? = some pc → pc = .receive := by
    intro t pc ht
    by_contra hne
    obtain ⟨a, ha, hsome⟩ := thread_enabled hret hb ht hne
    exact hsome (hnone a ha)
  obtain ⟨q, pc⟩ := c
  cases pc with
  | select =>
      by_cases hroom : s.ring.length < cfg.maxClients
      · exact absurd (hnone (.select i) trivial) (by simp [select_room hb hi hroom])
      · exact absurd (hnone (.select i) trivial) (by simp [select_full hb hi hroom])
  | evict => exact ⟨_, hmem, rfl⟩
  | answer old => exact absurd (hnone (.answer i) trivial) (answer_enabled hb hi)
  | returned result => exact absurd rfl (hpc result)
  | wait =>
      -- its request is in the ring, with a thread or with an evicting call: one of them can move
      have hheld := held_of_wait hb hi
      by_cases hring : 0 < s.inRing i
      · obtain ⟨k, q', hk, -⟩ := countP_pos_index.1 hring
        obtain ⟨pc, hpc0⟩ : ∃ pc, s.threads[0]? = some pc := ⟨_, List.getElem?_eq_getElem hthreads⟩
        obtain rfl := hthread hpc0
        obtain ⟨old, rest, hcons'⟩ := List.exists_cons_of_ne_nil (List.ne_nil_of_mem
          (List.mem_of_getElem? hk))
        exact absurd (hnone (.take 0) trivial) (by simp [take_some cfg hb hpc0 hcons'])
      by_cases hthr : 0 < s.withThreads i
      · obtain ⟨t, pc, ht, hholds⟩ := countP_pos_index.1 hthr
        rw [hthread ht] at hholds
        exact absurd hholds (by simp [ThreadPc.holds])
      have hev : 0 < s.withEvictors i := by omega
      obtain ⟨j, ⟨q', pc'⟩, hj, hholds⟩ := countP_pos_index.1 hev
      cases pc' with
      | answer old => exact absurd (hnone (.answer j) trivial) (answer_enabled hb hj)
      | select | evict | wait | returned => exact absurd hholds (by simp [Call.holds])

end enabled

/-! ## Runs in which every call finds room -/

/-- The call that executes its `select` finds room in the ring. -/
def Room (cfg : RingConfig M) (s : RingState M) : RingAction M → Prop
  | .select _ => s.ring.length < cfg.maxClients
  | _ => True

theorem threads_length_step {cfg : RingConfig M} {s s' : RingState M} {a : RingAction M}
    (hb : Balanced s) (hstep : ringStep cfg s a = some s') :
    s'.threads.length = s.threads.length := by
  cases ringStepped_of_ringStep hstep with
  | misuse hmis => exact absurd hmis (not_misuse hb)
  | call | enqueue | full | handEvict | evict | answer => rfl
  | handThread | take | checkOld | checkFresh | resolved | reply | close | addSlip =>
      exact List.length_set ..

/-- No call waits for a request to evict as long as calls find room. -/
theorem not_evicting_step {cfg : RingConfig M} {s s' : RingState M} {a : RingAction M}
    (hb : Balanced s) (h : ∀ c ∈ s.calls, c.pc ≠ .evict) (hroom : Room cfg s a)
    (hstep : ringStep cfg s a = some s') : ∀ c ∈ s'.calls, c.pc ≠ .evict := by
  cases ringStepped_of_ringStep hstep with
  | misuse hmis => exact absurd hmis (not_misuse hb)
  | call ts req => exact forall_mem_concat h (by simp)
  | enqueue hi _ => exact forall_mem_set h (by simp) _
  | full hi hfull => exact absurd hroom hfull
  | handThread hi ht => exact forall_mem_set h (by simp) _
  | handEvict hi hj => exact absurd rfl (h _ (List.mem_of_getElem? hj))
  | evict hi hring => exact absurd rfl (h _ (List.mem_of_getElem? hi))
  | answer hi hwait => exact forall_mem_set (forall_mem_set h (by simp) _) (by simp) _
  | reply ht hwait => exact forall_mem_set h (by simp) _
  | take | checkOld | checkFresh | resolved | close | addSlip => exact h

/-- **With room, no call hangs.** -/
theorem never_stuck_of_room {cfg : RingConfig M} (hthreads : 0 < cfg.threads) (hret : cfg.Returns)
    {acts : List (RingAction M)} (h : EachStep (ringStep cfg) (Room cfg) (ringStart cfg) acts) :
    Always (ringStep cfg) (fun s => ¬ Stuck cfg s) (ringStart cfg) acts := by
  have hinv : Always (ringStep cfg) (fun s => Balanced s ∧ s.threads.length = cfg.threads ∧
      ∀ c ∈ s.calls, c.pc ≠ .evict) (ringStart cfg) acts := by
    refine always_of_eachStep ⟨balanced_start cfg, by simp [ringStart], by simp [ringStart]⟩ ?_ h
    intro s a s' hs hroom hstep
    obtain ⟨hb, hlen, hpc⟩ := hs
    exact ⟨balanced_step hb hstep, (threads_length_step hb hstep).trans hlen,
      not_evicting_step hb hpc hroom hstep⟩
  intro pre post s hsplit hrun hstuck
  obtain ⟨hb, hlen, hpc⟩ := hinv pre post s hsplit hrun
  obtain ⟨c, hmem, hevict⟩ := stuck_evicting hret hb (by omega) hstuck
  exact hpc c hmem hevict

/-! ## How many calls are in progress -/

/-- The call has not returned. -/
def Call.inProgress (c : Call M) : Bool :=
  match c.pc with
  | .returned _ => false
  | _ => true

/-- The call waits for its response. -/
def Call.waits (c : Call M) : Bool :=
  match c.pc with
  | .wait => true
  | _ => false

/-- The call is about to execute its `select`. -/
def Call.selects (c : Call M) : Bool :=
  match c.pc with
  | .select => true
  | _ => false

/-- The call holds a request it has taken out of the ring. -/
def Call.answers (c : Call M) : Bool :=
  match c.pc with
  | .answer _ => true
  | _ => false

/-- The thread holds a request it has not answered. -/
def ThreadPc.busy (pc : ThreadPc M) : Bool :=
  match pc with
  | .check _ => true
  | .resolve _ => true
  | .reply _ _ _ => true
  | _ => false

/-- The number of calls in progress. -/
def RingState.inProgress (s : RingState M) : ℕ := s.calls.countP Call.inProgress

/-- There are as many waiting calls as requests not answered. -/
def WaitLaw (s : RingState M) : Prop :=
  s.calls.countP Call.waits =
    s.ring.length + s.threads.countP ThreadPc.busy + s.calls.countP Call.answers

theorem waitLaw_start (cfg : RingConfig M) : WaitLaw (ringStart cfg) := by
  simp [WaitLaw, ringStart, List.countP_replicate, ThreadPc.busy]

theorem calls_set_wait {calls : List (Call M)} {i : ℕ} {q : QueuedRequest M} {pc : CallPc M}
    (hi : calls[i]? = some ⟨q, pc⟩) (pc' : CallPc M) :
    (calls.set i ⟨q, pc'⟩).countP Call.waits + (Call.waits ⟨q, pc⟩).toNat =
        calls.countP Call.waits + (Call.waits ⟨q, pc'⟩).toNat ∧
      (calls.set i ⟨q, pc'⟩).countP Call.answers + (Call.answers ⟨q, pc⟩).toNat =
        calls.countP Call.answers + (Call.answers ⟨q, pc'⟩).toNat :=
  ⟨countP_set_add hi _ _, countP_set_add hi _ _⟩

theorem waitLaw_thread {s : RingState M} (h : WaitLaw s) {t : ℕ} {pc : ThreadPc M}
    (ht : s.threads[t]? = some pc) (pc' : ThreadPc M) (hbusy : pc'.busy = pc.busy)
    (closed : List ℕ) (slip : UInt32) :
    WaitLaw { s with threads := s.threads.set t pc', closed := closed, slip := slip } := by
  have ht' := countP_set_add ht ThreadPc.busy pc'
  rw [hbusy] at ht'
  simp only [WaitLaw] at h ⊢
  omega

theorem waitLaw_step {cfg : RingConfig M} {s s' : RingState M} {a : RingAction M}
    (hb : Balanced s) (h : WaitLaw s) (hstep : ringStep cfg s a = some s') : WaitLaw s' := by
  have hlaw := h
  simp only [WaitLaw] at h
  cases ringStepped_of_ringStep hstep with
  | misuse hmis => exact absurd hmis (not_misuse hb)
  | call ts req =>
      simp only [WaitLaw, countP_concat]
      simpa [Call.waits, Call.answers] using h
  | enqueue hi hroom =>
      have hc := calls_set_wait hi .wait
      simp only [Call.waits, Call.answers, Bool.toNat_false, Bool.toNat_true] at hc
      simp only [WaitLaw, List.length_append, List.length_singleton]
      omega
  | full hi hfull =>
      have hc := calls_set_wait hi .evict
      simp only [Call.waits, Call.answers, Bool.toNat_false] at hc
      simp only [WaitLaw]
      omega
  | @handThread i t q hi ht =>
      have hc := calls_set_wait hi .wait
      have ht' := countP_set_add ht ThreadPc.busy (.check q)
      simp only [Call.waits, Call.answers, ThreadPc.busy, Bool.toNat_false,
        Bool.toNat_true] at hc ht'
      simp only [WaitLaw]
      omega
  | @handEvict i j q q' hi hj =>
      have hj' := getElem?_set_of_ne hi hj (by simp) ⟨q, .wait⟩
      have hc := calls_set_wait hi .wait
      have hc' := calls_set_wait hj' (.answer q)
      simp only [Call.waits, Call.answers, Bool.toNat_false, Bool.toNat_true] at hc hc'
      simp only [WaitLaw]
      omega
  | @evict i q old rest hi hring =>
      have hc := calls_set_wait hi (.answer old)
      simp only [Call.waits, Call.answers, Bool.toNat_false, Bool.toNat_true] at hc
      rw [hring, List.length_cons] at h
      simp only [WaitLaw]
      omega
  | @answer i q q' old hi hwait =>
      have hi' := getElem?_set_of_ne hwait hi (by simp)
        ⟨q', .returned (resolveResult evictedResponse)⟩
      have hc := calls_set_wait hwait (.returned (resolveResult evictedResponse))
      have hc' := calls_set_wait hi' .select
      simp only [Call.waits, Call.answers, Bool.toNat_false, Bool.toNat_true] at hc hc'
      simp only [WaitLaw]
      omega
  | @take t q rest ht hring =>
      have ht' := countP_set_add ht ThreadPc.busy (.check q)
      simp only [ThreadPc.busy, Bool.toNat_false, Bool.toNat_true] at ht'
      rw [hring, List.length_cons] at h
      simp only [WaitLaw]
      omega
  | @reply t q q' response late ht hwait =>
      have hc := calls_set_wait hwait (.returned (resolveResult response))
      have ht' := countP_set_add ht ThreadPc.busy (.close q late)
      simp only [Call.waits, Call.answers, ThreadPc.busy, Bool.toNat_false,
        Bool.toNat_true] at hc ht'
      simp only [WaitLaw]
      omega
  | checkOld ht hold => exact waitLaw_thread hlaw ht (.reply _ tooOldResponse true) rfl _ _
  | checkFresh ht hfresh => exact waitLaw_thread hlaw ht (.resolve _) rfl _ _
  | resolved ht hres => exact waitLaw_thread hlaw ht (.reply _ _ false) rfl _ _
  | @close t q late ht =>
      refine waitLaw_thread hlaw ht (if late then .addSlip else .receive) ?_ _ _
      cases late <;> rfl
  | addSlip ht => exact waitLaw_thread hlaw ht .receive rfl _ _

theorem waitLaw_run {cfg : RingConfig M} {acts : List (RingAction M)} {s : RingState M}
    (hrun : run (ringStep cfg) (ringStart cfg) acts = some s) : WaitLaw s :=
  (run_invariant (fun s => Balanced s ∧ WaitLaw s) ⟨balanced_start cfg, waitLaw_start cfg⟩
    (fun _ _ _ h hstep => ⟨balanced_step h.1 hstep, waitLaw_step h.1 h.2 hstep⟩) hrun).2

theorem select_of_step {cfg : RingConfig M} {s s' : RingState M} {i : ℕ}
    (hstep : ringStep cfg s (.select i) = some s') : ∃ q, s.calls[i]? = some ⟨q, .select⟩ := by
  cases ringStepped_of_ringStep hstep with
  | enqueue hi => exact ⟨_, hi⟩
  | full hi => exact ⟨_, hi⟩
  | misuse hmis => cases hmis

/-- A call that is about to select finds fewer requests in the ring than there are
calls in progress. -/
theorem ring_lt_inProgress {s : RingState M} (h : WaitLaw s) {i : ℕ} {q : QueuedRequest M}
    (hi : s.calls[i]? = some ⟨q, .select⟩) : s.ring.length < s.inProgress := by
  have hsel : 0 < s.calls.countP Call.selects := countP_pos_index.2 ⟨i, _, hi, rfl⟩
  have hadd : s.calls.countP Call.waits + s.calls.countP Call.selects ≤ s.inProgress := by
    refine countP_add_le s.calls ?_ ?_ ?_ <;> rintro ⟨q, pc⟩ hc <;>
      cases pc <;> simp_all [Call.waits, Call.selects, Call.inProgress]
  simp only [WaitLaw] at h
  omega

/-! ## One call too many -/

theorem calls_length_step {cfg : RingConfig M} {s s' : RingState M} {a : RingAction M}
    (hb : Balanced s) (hstep : ringStep cfg s a = some s') :
    s.calls.length ≤ s'.calls.length := by
  cases ringStepped_of_ringStep hstep with
  | misuse hmis => exact absurd hmis (not_misuse hb)
  | call ts req => simp
  | enqueue | full | handThread | evict | reply => simp
  | handEvict | answer => simp
  | take | checkOld | checkFresh | resolved | close | addSlip => exact Nat.le_refl _

/-- In a run that makes at most `K` calls, at most `K` are in progress at once. -/
theorem always_inProgress_le {cfg : RingConfig M} {acts : List (RingAction M)} {s : RingState M}
    {K : ℕ} (hrun : run (ringStep cfg) (ringStart cfg) acts = some s) (hK : s.calls.length ≤ K) :
    Always (ringStep cfg) (fun s => s.inProgress ≤ K) (ringStart cfg) acts := by
  intro pre post t hsplit ht
  rw [hsplit] at hrun
  obtain ⟨t', ht', hpost⟩ := run_append_eq_some.1 hrun
  rw [ht] at ht'
  cases ht'
  have hmono : Balanced s ∧ t.calls.length ≤ s.calls.length := by
    refine run_invariant (fun u => Balanced u ∧ t.calls.length ≤ u.calls.length)
      ⟨(balanced_sound_run ht).1, Nat.le_refl _⟩ ?_ hpost
    intro u a u' hu hstep
    exact ⟨balanced_step hu.1 hstep, Nat.le_trans hu.2 (calls_length_step hu.1 hstep)⟩
  exact Nat.le_trans List.countP_le_length (Nat.le_trans hmono.2 hK)

/-- The steps of threads. -/
def RingAction.ofThread : RingAction M → Prop
  | .take _ => True
  | .check _ _ => True
  | .resolved _ _ => True
  | .reply _ => True
  | .close _ => True
  | .addSlip _ => True
  | _ => False

/-- All calls are made, one of them waits for a request to evict, and none is about
to select or to answer an evicted request. -/
structure Loaded (n : ℕ) (s : RingState M) : Prop where
  length : s.calls.length = n
  evicting : ∃ c ∈ s.calls, c.pc = .evict
  others : ∀ c ∈ s.calls, c.selects = false ∧ c.answers = false

/-- Threads leave it at that. -/
theorem loaded_step {cfg : RingConfig M} {n : ℕ} {s s' : RingState M} {a : RingAction M}
    (hb : Balanced s) (h : Loaded n s) (ha : a.ofThread) (hstep : ringStep cfg s a = some s') :
    Loaded n s' := by
  cases ringStepped_of_ringStep hstep with
  | misuse hmis => exact absurd hmis (not_misuse hb)
  | call | enqueue | full | handThread | handEvict | evict | answer => exact absurd ha id
  | take | checkOld | checkFresh | resolved | close | addSlip =>
      exact ⟨h.length, h.evicting, h.others⟩
  | reply ht hwait =>
      refine ⟨(List.length_set ..).trans h.length, ?_, forall_mem_set h.others ⟨rfl, rfl⟩ _⟩
      obtain ⟨⟨q, pc⟩, hmem, rfl⟩ := h.evicting
      exact ⟨_, mem_set_of_ne hwait hmem (by simp) _, rfl⟩

/-- What threads alone can reach. -/
def ThreadsReach (cfg : RingConfig M) (s s' : RingState M) : Prop :=
  ∃ acts : List (RingAction M), (∀ a ∈ acts, a.ofThread) ∧ run (ringStep cfg) s acts = some s'

theorem ThreadsReach.refl (cfg : RingConfig M) (s : RingState M) : ThreadsReach cfg s s :=
  ⟨[], by simp, rfl⟩

theorem ThreadsReach.head {cfg : RingConfig M} {s s₁ s' : RingState M} {a : RingAction M}
    (hstep : ringStep cfg s a = some s₁) (ha : a.ofThread) (h : ThreadsReach cfg s₁ s') :
    ThreadsReach cfg s s' := by
  obtain ⟨acts, hacts, hrun⟩ := h
  refine ⟨a :: acts, List.forall_mem_cons.2 ⟨ha, hacts⟩, ?_⟩
  rw [run_cons, hstep]
  exact hrun

theorem ThreadsReach.trans {cfg : RingConfig M} {s s₁ s' : RingState M}
    (h : ThreadsReach cfg s s₁) (h' : ThreadsReach cfg s₁ s') : ThreadsReach cfg s s' := by
  obtain ⟨acts, hacts, hrun⟩ := h
  obtain ⟨acts', hacts', hrun'⟩ := h'
  exact ⟨acts ++ acts', List.forall_mem_append.2 ⟨hacts, hacts'⟩,
    run_append_eq_some.2 ⟨s₁, hrun, hrun'⟩⟩

theorem ThreadsReach.balanced {cfg : RingConfig M} {s s' : RingState M}
    (h : ThreadsReach cfg s s') (hb : Balanced s) : Balanced s' := by
  obtain ⟨acts, -, hrun⟩ := h
  exact run_invariant Balanced hb (fun _ _ _ => balanced_step) hrun

theorem ThreadsReach.loaded {cfg : RingConfig M} {n : ℕ} {s s' : RingState M}
    (h : ThreadsReach cfg s s') (hb : Balanced s) (hl : Loaded n s) : Loaded n s' := by
  obtain ⟨acts, hacts, hrun⟩ := h
  have hall : Always (ringStep cfg) (fun u => Balanced u ∧ Loaded n u) s acts := by
    refine always_of_eachStep ⟨hb, hl⟩ ?_ (eachStep_of_forall fun a ha _ => hacts a ha)
    intro u a u' hu ha hstep
    exact ⟨balanced_step hu.1 hstep, loaded_step hu.1 hu.2 ha hstep⟩
  have hfinal := always_final hall hrun
  exact hfinal.2

section reach

variable {cfg : RingConfig M} {s : RingState M} {q : QueuedRequest M}

/-- A thread answers and goes back to wait for the next request. -/
theorem reach_reply (hb : Balanced s) {response : QueuedResponse M} {late : Bool}
    (ht : s.threads[0]? = some (.reply q response late)) :
    ∃ s', ThreadsReach cfg s s' ∧ s'.ring = s.ring ∧ s'.threads = s.threads.set 0 .receive := by
  obtain ⟨q', -, hreply⟩ := reply_some cfg hb ht
  have hb₁ := balanced_step hb hreply
  have ht₁ := getElem?_set_self_of_some ht (.close q late)
  have hclose : ringStep cfg _ (.close 0) = some _ := close_some hb₁ ht₁
  cases late with
  | false =>
      refine ⟨_, .head hreply trivial (.head hclose trivial (.refl cfg _)), rfl, ?_⟩
      exact List.set_set ..
  | true =>
      have hb₂ := balanced_step hb₁ hclose
      have ht₂ := getElem?_set_self_of_some ht₁ .addSlip
      have hslip : ringStep cfg _ (.addSlip 0) = some _ := addSlip_some hb₂ ht₂
      refine ⟨_, .head hreply trivial (.head hclose trivial (.head hslip trivial (.refl cfg _))),
        rfl, ?_⟩
      simp only [List.set_set]

theorem reach_resolve (hret : cfg.Returns) (hb : Balanced s)
    (ht : s.threads[0]? = some (.resolve q)) :
    ∃ s', ThreadsReach cfg s s' ∧ s'.ring = s.ring ∧ s'.threads = s.threads.set 0 .receive := by
  obtain ⟨response, hres⟩ := hret q.req
  have hstep := resolved_some hb ht hres
  have ht' := getElem?_set_self_of_some ht (.reply q response false)
  obtain ⟨s', hreach, hring, hthreads⟩ := reach_reply (balanced_step hb hstep) ht'
  exact ⟨s', .head hstep trivial hreach, hring, hthreads.trans (List.set_set ..)⟩

theorem reach_check (hret : cfg.Returns) (hb : Balanced s) (ht : s.threads[0]? = some (.check q))
    (now : ℤ) :
    ∃ s', ThreadsReach cfg s s' ∧ s'.ring = s.ring ∧ s'.threads = s.threads.set 0 .receive := by
  have hstep := check_some cfg hb ht now
  cases hold : cfg.tooOld (now - q.ts) with
  | true =>
      rw [hold, if_pos rfl] at hstep
      have ht' := getElem?_set_self_of_some ht (.reply q tooOldResponse true)
      obtain ⟨s', hreach, hring, hthreads⟩ := reach_reply (balanced_step hb hstep) ht'
      exact ⟨s', .head hstep trivial hreach, hring, hthreads.trans (List.set_set ..)⟩
  | false =>
      rw [hold, if_neg Bool.false_ne_true] at hstep
      have ht' := getElem?_set_self_of_some ht (.resolve q)
      obtain ⟨s', hreach, hring, hthreads⟩ := reach_resolve hret (balanced_step hb hstep) ht'
      exact ⟨s', .head hstep trivial hreach, hring, hthreads.trans (List.set_set ..)⟩

/-- A thread serves the oldest request. -/
theorem reach_serve (hret : cfg.Returns) (hb : Balanced s) {rest : List (QueuedRequest M)}
    (hring : s.ring = q :: rest) (ht : s.threads[0]? = some .receive) :
    ∃ s', ThreadsReach cfg s s' ∧ s'.ring = rest ∧ s'.threads = s.threads := by
  have hstep := take_some cfg hb ht hring
  have ht' := getElem?_set_self_of_some ht (.check q)
  obtain ⟨s', hreach, hring', hthreads⟩ := reach_check hret (balanced_step hb hstep) ht' 0
  refine ⟨s', .head hstep trivial hreach, hring', ?_⟩
  obtain ⟨_, hget⟩ := List.getElem?_eq_some_iff.1 ht
  rw [hthreads, List.set_set, ← hget, List.set_getElem_self]

end reach

/-- Threads empty the ring. -/
theorem reach_drained {cfg : RingConfig M} (hret : cfg.Returns) {s : RingState M}
    (hb : Balanced s) (ht : s.threads[0]? = some .receive) :
    ∃ s', ThreadsReach cfg s s' ∧ s'.ring = [] ∧ s'.threads = s.threads := by
  obtain ⟨ring, hring⟩ : ∃ ring, s.ring = ring := ⟨_, rfl⟩
  induction ring generalizing s with
  | nil => exact ⟨s, .refl cfg s, hring, rfl⟩
  | cons q rest ih =>
      obtain ⟨s₁, hreach, hring₁, hthreads⟩ := reach_serve hret hb hring ht
      obtain ⟨s', hreach', hring', hthreads'⟩ :=
        ih (hreach.balanced hb) (by rw [hthreads, ht]) hring₁
      exact ⟨s', hreach.trans hreach', hring', hthreads'.trans hthreads⟩

/-- Nothing moves when the ring is empty, all threads wait for a request, and so
does every call that has not returned. -/
theorem blocked_of_idle {cfg : RingConfig M} {s : RingState M} (hb : Balanced s)
    (hring : s.ring = []) (hthreads : ∀ pc ∈ s.threads, pc = .receive)
    (hcalls : ∀ c ∈ s.calls, c.pc = .evict ∨ ∃ result, c.pc = .returned result)
    {a : RingAction M} (ha : a.internal) : ringStep cfg s a = none := by
  have hcall : ∀ {i : ℕ} {q : QueuedRequest M} {pc : CallPc M}, s.calls[i]? = some ⟨q, pc⟩ →
      pc = .evict ∨ ∃ result, pc = .returned result :=
    fun hi => hcalls _ (List.mem_of_getElem? hi)
  have hthread : ∀ {t : ℕ} {pc : ThreadPc M}, s.threads[t]? = some pc → pc = .receive :=
    fun ht => hthreads _ (List.mem_of_getElem? ht)
  cases hstep : ringStep cfg s a with
  | none => rfl
  | some s' =>
      exfalso
      cases ringStepped_of_ringStep hstep with
      | misuse hmis => exact not_misuse hb hmis
      | call ts req => exact ha
      | enqueue hi | full hi | handThread hi | handEvict hi | answer hi =>
          simpa using hcall hi
      | evict hi hring' =>
          rw [hring] at hring'
          exact absurd hring' (by simp)
      | take ht hring' =>
          rw [hring] at hring'
          exact absurd hring' (by simp)
      | checkOld ht | checkFresh ht | resolved ht | reply ht | close ht | addSlip ht =>
          exact absurd (hthread ht) (by simp)

/-- A loaded state is stuck once the ring is empty and all threads wait. -/
theorem stuck_of_loaded {cfg : RingConfig M} {n : ℕ} {s : RingState M} (hb : Balanced s)
    (hl : Loaded n s) (hring : s.ring = []) (hthreads : ∀ pc ∈ s.threads, pc = .receive) :
    Stuck cfg s := by
  obtain ⟨c, hmem, hevict⟩ := hl.evicting
  refine ⟨⟨c, hmem, fun result hpc => ?_⟩, fun a ha => blocked_of_idle hb hring hthreads ?_ ha⟩
  · rw [hevict] at hpc
    exact absurd hpc (by simp)
  · rintro ⟨q, pc⟩ hc
    obtain ⟨hsel, hans⟩ := hl.others _ hc
    cases pc with
    | evict => exact Or.inl rfl
    | returned result => exact Or.inr ⟨result, rfl⟩
    | select => exact absurd hsel (by simp [Call.selects])
    | answer old => exact absurd hans (by simp [Call.answers])
    | wait =>
        -- its request would have to be somewhere
        obtain ⟨i, hi⟩ := List.getElem?_of_mem hc
        have hheld := held_of_wait hb hi
        have h1 : s.inRing i = 0 := by rw [RingState.inRing, hring]; rfl
        have h2 : s.withThreads i = 0 := by
          refine List.countP_eq_zero.2 fun pc hpc => ?_
          rw [hthreads pc hpc]
          simp [ThreadPc.holds]
        have h3 : s.withEvictors i = 0 := by
          refine List.countP_eq_zero.2 fun c' hc' hholds => ?_
          have hans' := (hl.others c' hc').2
          obtain ⟨q', pc'⟩ := c'
          cases pc' <;> simp_all [Call.holds, Call.answers]
        omega

/-- All calls wait, and their requests are in the ring. -/
structure Filled (cfg : RingConfig M) (n : ℕ) (s : RingState M) : Prop where
  ring : s.ring.length = n
  length : s.calls.length = n
  calls : ∀ c ∈ s.calls, c.pc = .wait
  threads : s.threads = List.replicate cfg.threads .receive

theorem call_some {cfg : RingConfig M} {s : RingState M} (hb : Balanced s) (ts : ℤ) (req : M) :
    ringStep cfg s (.call ts req) =
      some { s with calls := s.calls ++ [⟨⟨ts, req, s.calls.length⟩, .select⟩] } := by
  rw [ringStep_of_alive hb]
  rfl

/-- Calls fill the ring before any thread moves. -/
theorem exists_filled [Inhabited M] (cfg : RingConfig M) {n : ℕ} (hn : n ≤ cfg.maxClients) :
    ∃ acts s, run (ringStep cfg) (ringStart cfg) acts = some s ∧ Filled cfg n s := by
  induction n with
  | zero => exact ⟨[], _, rfl, rfl, rfl, by simp [ringStart], rfl⟩
  | succ n ih =>
      obtain ⟨acts, s, hrun, hf⟩ := ih (by omega)
      have hb := (balanced_sound_run hrun).1
      have hcall : ringStep cfg s (.call 0 default) = some _ := call_some hb 0 default
      have hi : (s.calls ++ [(⟨⟨0, default, s.calls.length⟩, .select⟩ : Call M)])[n]? =
          some ⟨⟨0, default, s.calls.length⟩, .select⟩ := by
        simp [← hf.length]
      have hroom : s.ring.length < cfg.maxClients := by
        rw [hf.ring]
        omega
      have hselect : ringStep cfg _ (.select n) = some _ :=
        select_room (balanced_step hb hcall) hi hroom
      refine ⟨acts ++ [.call 0 default] ++ [.select n], _,
        run_concat_eq_some.2 ⟨_, run_concat_eq_some.2 ⟨s, hrun, hcall⟩, hselect⟩, ?_, ?_, ?_, ?_⟩
      · simp [hf.ring]
      · simp [hf.length]
      · simp only [← hf.length, set_length_concat]
        exact forall_mem_concat hf.calls rfl
      · exact hf.threads

/-- **One call too many.**  With one call more than the ring has places, there is a
run that gets stuck. -/
theorem stuck_of_overload [Inhabited M] {cfg : RingConfig M} (hthreads : 0 < cfg.threads)
    (hret : cfg.Returns) :
    ∃ acts s, run (ringStep cfg) (ringStart cfg) acts = some s ∧
      s.calls.length = cfg.maxClients + 1 ∧ Stuck cfg s := by
  obtain ⟨acts, s, hrun, hf⟩ := exists_filled cfg (Nat.le_refl cfg.maxClients)
  have hb := (balanced_sound_run hrun).1
  have hcall : ringStep cfg s (.call 0 default) = some _ := call_some hb 0 default
  have hi : (s.calls ++ [(⟨⟨0, default, s.calls.length⟩, .select⟩ : Call M)])[s.calls.length]? =
      some ⟨⟨0, default, s.calls.length⟩, .select⟩ := by
    simp
  have hfull : ¬ s.ring.length < cfg.maxClients := by
    rw [hf.ring]
    exact Nat.lt_irrefl _
  have hb₁ := balanced_step hb hcall
  have hselect : ringStep cfg _ (.select s.calls.length) = some _ := select_full hb₁ hi hfull
  have hb₂ := balanced_step hb₁ hselect
  have hrun₂ := run_concat_eq_some.2 ⟨_, run_concat_eq_some.2 ⟨s, hrun, hcall⟩, hselect⟩
  rw [set_length_concat] at hrun₂ hb₂
  have hl : Loaded (cfg.maxClients + 1) { s with
      calls := s.calls ++ [⟨⟨0, default, s.calls.length⟩, .evict⟩] } := by
    refine ⟨by simp [hf.length], ⟨_, List.mem_append_right _ (List.mem_singleton_self _), rfl⟩, ?_⟩
    refine forall_mem_concat (fun c hc => ?_) ⟨rfl, rfl⟩
    simp [Call.selects, Call.answers, hf.calls c hc]
  have hreceive : ∀ pc ∈ s.threads, pc = .receive := by
    rw [hf.threads]
    exact fun pc hpc => List.eq_of_mem_replicate hpc
  have ht : s.threads[0]? = some .receive := by simp [hf.threads, hthreads]
  -- the threads empty the ring before the last call gets to evict anything
  obtain ⟨s', hreach, hring, hsame⟩ := reach_drained hret hb₂ ht
  have hl' := hreach.loaded hb₂ hl
  obtain ⟨acts', -, hrun'⟩ := id hreach
  refine ⟨_, s', run_append_eq_some.2 ⟨_, hrun₂, hrun'⟩, hl'.length, ?_⟩
  refine stuck_of_loaded (hreach.balanced hb₂) hl' hring ?_
  rw [hsame]
  exact hreceive

/-- **When no call hangs.**  A run in which every call that executes its `select`
finds room in the ring is never stuck; and no run with at most `K` calls in
progress at once is ever stuck exactly when the ring has room for `K` requests. -/
theorem never_stuck_iff [Inhabited M] (cfg : RingConfig M) (hthreads : 1 ≤ cfg.threads)
    (hret : cfg.Returns) :
    (∀ acts, EachStep (ringStep cfg) (Room cfg) (ringStart cfg) acts →
        Always (ringStep cfg) (fun s => ¬ Stuck cfg s) (ringStart cfg) acts) ∧
      ∀ K, (∀ acts, Always (ringStep cfg) (fun s => s.inProgress ≤ K) (ringStart cfg) acts →
        Always (ringStep cfg) (fun s => ¬ Stuck cfg s) (ringStart cfg) acts) ↔
          K ≤ cfg.maxClients := by
  refine ⟨fun acts h => never_stuck_of_room hthreads hret h, fun K => ⟨fun h => ?_, ?_⟩⟩
  · by_contra hK
    obtain ⟨acts, s, hrun, hlen, hstuck⟩ := stuck_of_overload (M := M) hthreads hret
    have hfew := always_inProgress_le hrun (by omega : s.calls.length ≤ K)
    exact always_final (h acts hfew) hrun hstuck
  · intro hK acts hfew
    refine never_stuck_of_room hthreads hret ?_
    intro pre a post s s' hsplit hrun hstep
    cases a with
    | select i =>
        have hlaw := waitLaw_run hrun
        have hle : s.inProgress ≤ K := hfew pre _ s hsplit hrun
        obtain ⟨q, hi⟩ := select_of_step hstep
        exact Nat.lt_of_lt_of_le (ring_lt_inProgress hlaw hi) (Nat.le_trans hle hK)
    | _ => trivial

/-- A ring of one place is good for one call at a time. -/
theorem never_stuck_oneClient :
    oneClient.Returns ∧
      ∀ K, (∀ acts, Always (ringStep oneClient) (fun s => s.inProgress ≤ K)
          (ringStart oneClient) acts →
        Always (ringStep oneClient) (fun s => ¬ Stuck oneClient s) (ringStart oneClient) acts) ↔
          K ≤ 1 :=
  have hret : oneClient.Returns := fun _ => ⟨zeroResponse, rfl⟩
  ⟨hret, (never_stuck_iff oneClient (Nat.le_refl 1) hret).2⟩

/-- Two calls, of which the second finds the ring full of the first one's request;
then the thread takes that request and answers it. -/
def twoCalls : List (RingAction String) :=
  [.call 0 "first", .select 0, .call 0 "second", .select 1, .take 0, .check 0 0,
    .resolved 0 ⟨some "answer", 1000000, none⟩, .reply 0, .close 0]

/-- Where this leads: the ring is empty, the thread is idle, and the second call
waits for a request to evict. -/
def oneHangs : RingState String :=
  ⟨[], [⟨⟨0, "first", 0⟩, .returned (some "answer", 1000000, none)⟩, ⟨⟨0, "second", 1⟩, .evict⟩],
    [.receive], [0], 0, [(0, ⟨some "answer", 1000000, none⟩)], false⟩

/-- **A call hangs.** -/
theorem second_call_hangs :
    run (ringStep oneClient) (ringStart oneClient) twoCalls = some oneHangs ∧
      Stuck oneClient oneHangs := by
  have hrun : run (ringStep oneClient) (ringStart oneClient) twoCalls = some oneHangs := by
    decide +kernel
  refine ⟨hrun, stuck_of_loaded (balanced_sound_run hrun).1 (n := 2) ⟨rfl, ?_, ?_⟩ rfl ?_⟩
  · exact ⟨_, List.mem_cons_of_mem _ (List.mem_singleton_self _), rfl⟩
  · simp [oneHangs, Call.selects, Call.answers]
  · simp [oneHangs]

end Jojo
