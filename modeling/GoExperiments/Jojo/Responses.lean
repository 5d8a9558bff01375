import GoExperiments.Jojo.Ring

/-!
# Every request gets one response

What holds of the ring of `GoExperiments.Jojo.Ring` whatever the order of steps.

* `Balanced`, `balanced_step` — the conservation law: a request that was put into
  the ring is counted once among the ring, the threads, the evicting calls and the
  responses sent.  It excludes a send on a closed channel.
* `Sound`, `sound_step` — what is passed around is the request of the call its
  channel belongs to, and what is sent is a response to it.
* `exactly_one_response` — both, for every run.
-/

namespace Jojo

open Runs Census

variable {M : Type}

/-! ## Where a request is counted -/

/-- The call has taken the request of channel `k` out of the ring. -/
def Call.holds (k : ℕ) (c : Call M) : Bool :=
  match c.pc with
  | .answer old => old.responseChan == k
  | _ => false

/-- The call has put its request, with channel `k`, into the ring. -/
def Call.enqueued (k : ℕ) (c : Call M) : Bool :=
  match c.pc with
  | .wait => c.queuedRequest.responseChan == k
  | .returned _ => c.queuedRequest.responseChan == k
  | _ => false

/-- The call has its response, from channel `k`. -/
def Call.answered (k : ℕ) (c : Call M) : Bool :=
  match c.pc with
  | .returned _ => c.queuedRequest.responseChan == k
  | _ => false

/-- The thread has taken the request of channel `k` and not answered it. -/
def ThreadPc.holds (k : ℕ) : ThreadPc M → Bool
  | .check q => q.responseChan == k
  | .resolve q => q.responseChan == k
  | .reply q _ _ => q.responseChan == k
  | _ => false

/-- The thread is about to close channel `k`. -/
def ThreadPc.closes (k : ℕ) : ThreadPc M → Bool
  | .close q _ => q.responseChan == k
  | _ => false

namespace RingState

variable (s : RingState M) (k : ℕ)

/-- How often the request of channel `k` is in the ring. -/
def inRing : ℕ := s.ring.countP fun q => q.responseChan == k

/-- How many threads hold the request of channel `k`. -/
def withThreads : ℕ := s.threads.countP (ThreadPc.holds k)

/-- How many calls hold the request of channel `k`. -/
def withEvictors : ℕ := s.calls.countP (Call.holds k)

/-- How many responses were sent on channel `k`. -/
def responses : ℕ := s.sent.countP fun e => e.1 == k

/-- How many calls have put a request with channel `k` into the ring. -/
def enqueued : ℕ := s.calls.countP (Call.enqueued k)

/-- How many calls with channel `k` have returned. -/
def answered : ℕ := s.calls.countP (Call.answered k)

/-- How many threads are about to close channel `k`. -/
def closing : ℕ := s.threads.countP (ThreadPc.closes k)

/-- How often channel `k` was closed. -/
def closings : ℕ := s.closed.countP fun ch => ch == k

end RingState

/-- The books of channel `k` balance. -/
structure BalancedAt (s : RingState M) (k : ℕ) : Prop where
  conserved : s.inRing k + s.withThreads k + s.withEvictors k + s.responses k = s.enqueued k
  answered : s.responses k = s.answered k
  closing : s.closing k + s.closings k ≤ s.responses k

/-- The conservation law, for a program that has not panicked and whose channels
are numbered as its calls are. -/
structure Balanced (s : RingState M) : Prop where
  alive : s.panicked = false
  own : ∀ (i : ℕ) (c : Call M), s.calls[i]? = some c → c.queuedRequest.responseChan = i
  at' : ∀ k, BalancedAt s k

theorem balancedAt_iff {s : RingState M} {k : ℕ} :
    BalancedAt s k ↔
      s.ring.countP (fun q => q.responseChan == k) + s.threads.countP (ThreadPc.holds k) +
          s.calls.countP (Call.holds k) + s.sent.countP (fun e => e.1 == k) =
        s.calls.countP (Call.enqueued k) ∧
      s.sent.countP (fun e => e.1 == k) =
        s.calls.countP (Call.answered k) ∧
      s.threads.countP (ThreadPc.closes k) + s.closed.countP (fun ch => ch == k) ≤
        s.sent.countP (fun e => e.1 == k) :=
  ⟨fun h => ⟨h.conserved, h.answered, h.closing⟩, fun h => ⟨h.1, h.2.1, h.2.2⟩⟩

/-- A call moves on. -/
theorem calls_set {calls : List (Call M)} {i : ℕ} {q : QueuedRequest M} {pc : CallPc M}
    (hi : calls[i]? = some ⟨q, pc⟩) (pc' : CallPc M) (k : ℕ) :
    (calls.set i ⟨q, pc'⟩).countP (Call.holds k) + (Call.holds k ⟨q, pc⟩).toNat =
        calls.countP (Call.holds k) + (Call.holds k ⟨q, pc'⟩).toNat ∧
      (calls.set i ⟨q, pc'⟩).countP (Call.enqueued k) + (Call.enqueued k ⟨q, pc⟩).toNat =
        calls.countP (Call.enqueued k) + (Call.enqueued k ⟨q, pc'⟩).toNat ∧
      (calls.set i ⟨q, pc'⟩).countP (Call.answered k) + (Call.answered k ⟨q, pc⟩).toNat =
        calls.countP (Call.answered k) + (Call.answered k ⟨q, pc'⟩).toNat :=
  ⟨countP_set_add hi _ _, countP_set_add hi _ _, countP_set_add hi _ _⟩

/-- A thread moves on. -/
theorem threads_set {threads : List (ThreadPc M)} {t : ℕ} {pc : ThreadPc M}
    (ht : threads[t]? = some pc) (pc' : ThreadPc M) (k : ℕ) :
    (threads.set t pc').countP (ThreadPc.holds k) + (pc.holds k).toNat =
        threads.countP (ThreadPc.holds k) + (pc'.holds k).toNat ∧
      (threads.set t pc').countP (ThreadPc.closes k) + (pc.closes k).toNat =
        threads.countP (ThreadPc.closes k) + (pc'.closes k).toNat :=
  ⟨countP_set_add ht _ _, countP_set_add ht _ _⟩

theorem own_set {calls : List (Call M)} {i : ℕ} {q : QueuedRequest M} {pc : CallPc M}
    (hown : ∀ (j : ℕ) (c : Call M), calls[j]? = some c → c.queuedRequest.responseChan = j)
    (hi : calls[i]? = some ⟨q, pc⟩) (pc' : CallPc M) :
    ∀ (j : ℕ) (c : Call M), (calls.set i ⟨q, pc'⟩)[j]? = some c →
      c.queuedRequest.responseChan = j := by
  intro j c hj
  rw [List.getElem?_set] at hj
  split at hj
  · rename_i hij
    subst hij
    split at hj
    · cases hj
      exact hown i ⟨q, pc⟩ hi
    · exact absurd hj (by simp)
  · exact hown j c hj

theorem own_concat {calls : List (Call M)}
    (hown : ∀ (j : ℕ) (c : Call M), calls[j]? = some c → c.queuedRequest.responseChan = j)
    (ts : ℤ) (req : M) :
    ∀ (j : ℕ) (c : Call M), (calls ++ [⟨⟨ts, req, calls.length⟩, .select⟩])[j]? = some c →
      c.queuedRequest.responseChan = j := by
  intro j c hj
  rw [List.getElem?_append] at hj
  split at hj
  · exact hown j c hj
  · rename_i hlen
    obtain ⟨hlt, rfl⟩ := List.getElem?_eq_some_iff.1 hj
    simp only [List.length_singleton] at hlt
    simp only [List.getElem_singleton]
    omega

/-! ## What the books say -/

section Balanced

variable {s : RingState M}

theorem chan_of_enqueued {k : ℕ} {c : Call M} (h : c.enqueued k = true) :
    c.queuedRequest.responseChan = k := by
  rw [Call.enqueued] at h
  split at h
  · exact beq_iff_eq.1 h
  · exact beq_iff_eq.1 h
  · exact absurd h (by simp)

/-- At most one call has put a request with channel `k` into the ring. -/
theorem enqueued_le_one (h : Balanced s) (k : ℕ) : s.enqueued k ≤ 1 := by
  refine countP_le_one k fun j c hj hc => ?_
  rw [← h.own j c hj]
  exact chan_of_enqueued hc

/-- A call that still waits has no response. -/
theorem responses_of_wait (h : Balanced s) {i : ℕ} {q : QueuedRequest M}
    (hi : s.calls[i]? = some ⟨q, .wait⟩) : s.responses i = 0 := by
  rw [(h.at' i).answered]
  refine List.countP_eq_zero.2 fun c hc hans => ?_
  obtain ⟨j, hj⟩ := List.getElem?_of_mem hc
  rw [Call.answered] at hans
  split at hans
  · rename_i hpc
    obtain rfl : j = i := (h.own j c hj).symm.trans (beq_iff_eq.1 hans)
    rw [hi] at hj
    cases hj
    exact absurd hpc (by simp)
  · exact absurd hans (by simp)

/-- The request of a call that still waits is counted somewhere. -/
theorem held_of_wait (h : Balanced s) {i : ℕ} {q : QueuedRequest M}
    (hi : s.calls[i]? = some ⟨q, .wait⟩) : 0 < s.inRing i + s.withThreads i + s.withEvictors i := by
  have hnone := responses_of_wait h hi
  have hpos : 0 < s.enqueued i := countP_pos_index.2 ⟨i, _, hi, beq_iff_eq.2 (h.own i _ hi)⟩
  have hcons := (h.at' i).conserved
  omega

/-- A request that is counted somewhere belongs to a call that waits for it. -/
theorem wait_of_held (h : Balanced s) {k : ℕ}
    (hk : 0 < s.inRing k + s.withThreads k + s.withEvictors k) :
    ∃ q, s.calls[k]? = some ⟨q, .wait⟩ := by
  have hle := enqueued_le_one h k
  obtain ⟨hcons, hans, -⟩ := h.at' k
  have hpos : 0 < s.enqueued k := by omega
  obtain ⟨c, hmem, hc⟩ := List.countP_pos_iff.1 hpos
  obtain ⟨j, hj⟩ := List.getElem?_of_mem hmem
  have hchan := chan_of_enqueued hc
  obtain rfl : j = k := (h.own j c hj).symm.trans hchan
  obtain ⟨q, pc⟩ := c
  cases pc with
  | wait => exact ⟨q, hj⟩
  | returned result =>
      have hone : 0 < s.answered j := List.countP_pos_iff.2 ⟨_, hmem, beq_iff_eq.2 hchan⟩
      omega
  | select | evict | answer => exact absurd hc (by simp [Call.enqueued])

/-- The channel of a request that is counted somewhere is open. -/
theorem open_of_held (h : Balanced s) {k : ℕ}
    (hk : 0 < s.inRing k + s.withThreads k + s.withEvictors k) : k ∉ s.closed := by
  intro hmem
  have hpos : 0 < s.closings k := List.countP_pos_iff.2 ⟨k, hmem, by simp⟩
  have hle := enqueued_le_one h k
  obtain ⟨hcons, -, hclosing⟩ := h.at' k
  omega

theorem held_of_thread {t : ℕ} {pc : ThreadPc M} {k : ℕ} (ht : s.threads[t]? = some pc)
    (hpc : pc.holds k = true) : 0 < s.inRing k + s.withThreads k + s.withEvictors k := by
  have hpos : 0 < s.withThreads k := List.countP_pos_iff.2 ⟨pc, List.mem_of_getElem? ht, hpc⟩
  omega

theorem held_of_evictor {i : ℕ} {c : Call M} {k : ℕ} (hi : s.calls[i]? = some c)
    (hc : c.holds k = true) : 0 < s.inRing k + s.withThreads k + s.withEvictors k := by
  have hpos : 0 < s.withEvictors k := List.countP_pos_iff.2 ⟨c, List.mem_of_getElem? hi, hc⟩
  omega

/-- A channel that a thread is about to close is open. -/
theorem open_of_closing (h : Balanced s) {t : ℕ} {q : QueuedRequest M} {late : Bool}
    (ht : s.threads[t]? = some (.close q late)) : q.responseChan ∉ s.closed := by
  intro hmem
  have hpos : 0 < s.closings q.responseChan := List.countP_pos_iff.2 ⟨_, hmem, by simp⟩
  have hclosing : 0 < s.closing q.responseChan :=
    List.countP_pos_iff.2 ⟨_, List.mem_of_getElem? ht, by simp [ThreadPc.closes]⟩
  have hle := enqueued_le_one h q.responseChan
  obtain ⟨hcons, -, hcl⟩ := h.at' q.responseChan
  omega

/-- The channel of a call that waits is open. -/
theorem open_of_wait (h : Balanced s) {i : ℕ} {q : QueuedRequest M}
    (hi : s.calls[i]? = some ⟨q, .wait⟩) : i ∉ s.closed := by
  intro hmem
  have hpos : 0 < s.closings i := List.countP_pos_iff.2 ⟨_, hmem, by simp⟩
  have hnone := responses_of_wait h hi
  have hcl := (h.at' i).closing
  omega

/-- No closed channel is used. -/
theorem not_misuse (h : Balanced s) {a : RingAction M} : ¬ Misuse s a := by
  intro hmis
  cases hmis with
  | answer hi hclosed =>
      exact open_of_held h (held_of_evictor hi (beq_self_eq_true _)) hclosed
  | receive hi hclosed => exact open_of_wait h hi hclosed
  | reply ht hclosed => exact open_of_held h (held_of_thread ht (beq_self_eq_true _)) hclosed
  | close ht hclosed => exact open_of_closing h ht hclosed

end Balanced

/-! ## The conservation law -/

theorem balanced_start (cfg : RingConfig M) : Balanced (ringStart cfg) := by
  refine ⟨rfl, fun i c hi => absurd hi (by simp [ringStart]), fun k => ?_⟩
  refine balancedAt_iff.2 ⟨?_, rfl, ?_⟩
  · simp [ringStart, List.countP_replicate, ThreadPc.holds]
  · simp [ringStart, List.countP_replicate, ThreadPc.closes]

/-- A thread that neither takes nor answers nor closes leaves the books alone. -/
theorem balanced_thread {s : RingState M} (h : Balanced s) {t : ℕ} {pc : ThreadPc M}
    (ht : s.threads[t]? = some pc) (pc' : ThreadPc M) (hholds : ∀ k, pc'.holds k = pc.holds k)
    (hcloses : ∀ k, pc'.closes k = pc.closes k) (slip : UInt32) :
    Balanced { s with threads := s.threads.set t pc', slip := slip } := by
  refine ⟨h.alive, h.own, fun k => ?_⟩
  have hk := balancedAt_iff.1 (h.at' k)
  have ht' := threads_set ht pc' k
  rw [hholds, hcloses] at ht'
  simp only [balancedAt_iff]
  omega

/-- **The conservation law.**  Every step keeps the books balanced. -/
theorem balanced_step {cfg : RingConfig M} {s s' : RingState M} {a : RingAction M}
    (h : Balanced s) (hstep : ringStep cfg s a = some s') : Balanced s' := by
  have hk := fun k => balancedAt_iff.1 (h.at' k)
  cases ringStepped_of_ringStep hstep with
  | call ts req =>
      refine ⟨h.alive, own_concat h.own ts req, fun k => ?_⟩
      simp only [balancedAt_iff, countP_concat]
      simpa [Call.holds, Call.enqueued, Call.answered] using hk k
  | enqueue hi hroom =>
      refine ⟨h.alive, own_set h.own hi .wait, fun k => ?_⟩
      have hbooks := hk k
      have hc := calls_set hi .wait k
      simp only [Call.holds, Call.enqueued, Call.answered, Bool.toNat_false, Nat.add_zero] at hc
      simp only [balancedAt_iff, countP_concat]
      omega
  | full hi hfull =>
      refine ⟨h.alive, own_set h.own hi .evict, fun k => ?_⟩
      have hbooks := hk k
      have hc := calls_set hi .evict k
      simp only [Call.holds, Call.enqueued, Call.answered, Bool.toNat_false, Nat.add_zero] at hc
      simp only [balancedAt_iff]
      omega
  | @handThread i t q hi ht =>
      refine ⟨h.alive, own_set h.own hi .wait, fun k => ?_⟩
      have hbooks := hk k
      have hc := calls_set hi .wait k
      have ht' := threads_set ht (.check q) k
      simp only [Call.holds, Call.enqueued, Call.answered, ThreadPc.holds, ThreadPc.closes,
        Bool.toNat_false, Nat.add_zero] at hc ht'
      simp only [balancedAt_iff]
      omega
  | @handEvict i j q q' hi hj =>
      have hj' := getElem?_set_of_ne hi hj (by simp) ⟨q, .wait⟩
      refine ⟨h.alive, own_set (own_set h.own hi .wait) hj' (.answer q), fun k => ?_⟩
      have hbooks := hk k
      have hc := calls_set hi .wait k
      have hc' := calls_set hj' (.answer q) k
      simp only [Call.holds, Call.enqueued, Call.answered, Bool.toNat_false, Nat.add_zero] at hc hc'
      simp only [balancedAt_iff]
      omega
  | @evict i q old rest hi hring =>
      refine ⟨h.alive, own_set h.own hi (.answer old), fun k => ?_⟩
      have hbooks := hk k
      have hc := calls_set hi (.answer old) k
      rw [hring, countP_cons_add] at hbooks
      simp only [Call.holds, Call.enqueued, Call.answered, Bool.toNat_false, Nat.add_zero] at hc
      simp only [balancedAt_iff]
      omega
  | @answer i q q' old hi hwait =>
      have hown : q'.responseChan = old.responseChan := h.own _ _ hwait
      have hi' := getElem?_set_of_ne hwait hi (by simp)
        ⟨q', .returned (resolveResult evictedResponse)⟩
      refine ⟨h.alive, own_set (own_set h.own hwait _) hi' .select, fun k => ?_⟩
      have hbooks := hk k
      have hc := calls_set hwait (.returned (resolveResult evictedResponse)) k
      have hc' := calls_set hi' .select k
      simp only [Call.holds, Call.enqueued, Call.answered, Bool.toNat_false, Nat.add_zero,
        hown] at hc hc'
      simp only [balancedAt_iff, countP_cons_add]
      omega
  | @take t q rest ht hring =>
      refine ⟨h.alive, h.own, fun k => ?_⟩
      have hbooks := hk k
      have ht' := threads_set ht (.check q) k
      rw [hring, countP_cons_add] at hbooks
      simp only [ThreadPc.holds, ThreadPc.closes, Bool.toNat_false, Nat.add_zero] at ht'
      simp only [balancedAt_iff]
      omega
  | checkOld ht hold =>
      exact balanced_thread h ht (.reply _ tooOldResponse true) (fun _ => rfl) (fun _ => rfl) _
  | checkFresh ht hfresh => exact balanced_thread h ht (.resolve _) (fun _ => rfl) (fun _ => rfl) _
  | resolved ht hres =>
      exact balanced_thread h ht (.reply _ _ false) (fun _ => rfl) (fun _ => rfl) _
  | @reply t q q' response late ht hwait =>
      have hown : q'.responseChan = q.responseChan := h.own _ _ hwait
      refine ⟨h.alive, own_set h.own hwait _, fun k => ?_⟩
      have hbooks := hk k
      have hc := calls_set hwait (.returned (resolveResult response)) k
      have ht' := threads_set ht (.close q late) k
      simp only [Call.holds, Call.enqueued, Call.answered, ThreadPc.holds, ThreadPc.closes,
        Bool.toNat_false, Nat.add_zero, hown] at hc ht'
      simp only [balancedAt_iff, countP_cons_add]
      omega
  | @close t q late ht =>
      refine ⟨h.alive, h.own, fun k => ?_⟩
      have hbooks := hk k
      have ht' := threads_set ht (if late then .addSlip else .receive) k
      cases late <;> simp only [ThreadPc.holds, ThreadPc.closes, Bool.toNat_false, Nat.add_zero,
        if_true, Bool.false_eq_true, if_false] at ht' ⊢ <;>
        simp only [balancedAt_iff, countP_cons_add] <;> omega
  | misuse hmis => exact absurd hmis (not_misuse h)
  | addSlip ht => exact balanced_thread h ht .receive (fun _ => rfl) (fun _ => rfl) _

/-! ## What is passed around -/

/-- A response to a request for `req`: `Evicted`, `Request too old`, or what `syncResolve`
returned for it. -/
def ResponseTo (cfg : RingConfig M) (req : M) (response : QueuedResponse M) : Prop :=
  response = ⟨none, 0, some "Evicted"⟩ ∨ response = ⟨none, 0, some "Request too old"⟩ ∨
    cfg.resolves req response = true

/-- The requests of the calls; the position is the channel. -/
def RingState.requests (s : RingState M) : List (QueuedRequest M) :=
  s.calls.map Call.queuedRequest

/-- What a thread works on is the request of the call its channel belongs to, and
what it is going to send is a response to that. -/
def ThreadPc.Sound (cfg : RingConfig M) (requests : List (QueuedRequest M)) : ThreadPc M → Prop
  | .receive => True
  | .check q => requests[q.responseChan]? = some q
  | .resolve q => requests[q.responseChan]? = some q
  | .reply q response _ => requests[q.responseChan]? = some q ∧ ResponseTo cfg q.req response
  | .close _ _ => True
  | .addSlip => True

/-- What a call has taken out of the ring is a request of the call its channel
belongs to; what it returns is made of a response that was sent on its channel. -/
def Call.Sound (requests : List (QueuedRequest M)) (sent : List (ℕ × QueuedResponse M))
    (c : Call M) : Prop :=
  match c.pc with
  | .answer old => requests[old.responseChan]? = some old
  | .returned result =>
      ∃ response, (c.queuedRequest.responseChan, response) ∈ sent ∧ result = resolveResult response
  | _ => True

/-- All of this, for a state. -/
structure Sound (cfg : RingConfig M) (s : RingState M) : Prop where
  ring : ∀ q ∈ s.ring, s.requests[q.responseChan]? = some q
  threads : ∀ pc ∈ s.threads, pc.Sound cfg s.requests
  calls : ∀ c ∈ s.calls, c.Sound s.requests s.sent
  sent : ∀ e ∈ s.sent, ∃ q, s.requests[e.1]? = some q ∧ ResponseTo cfg q.req e.2

theorem requests_set {calls : List (Call M)} {i : ℕ} {q : QueuedRequest M} {pc : CallPc M}
    (hi : calls[i]? = some ⟨q, pc⟩) (pc' : CallPc M) :
    (calls.set i ⟨q, pc'⟩).map Call.queuedRequest = calls.map Call.queuedRequest := by
  induction calls generalizing i with
  | nil => rfl
  | cons c calls ih =>
      cases i with
      | zero =>
          obtain rfl : c = ⟨q, pc⟩ := by simpa using hi
          rfl
      | succ i =>
          rw [List.set_cons_succ, List.map_cons, List.map_cons, ih (by simpa using hi)]

/-- A call's own request. -/
theorem requests_of_call {s : RingState M} (hb : Balanced s) {i : ℕ} {q : QueuedRequest M}
    {pc : CallPc M} (hi : s.calls[i]? = some ⟨q, pc⟩) :
    s.requests[q.responseChan]? = some q := by
  have hown : q.responseChan = i := hb.own i _ hi
  rw [RingState.requests, List.getElem?_map, hown, hi]
  rfl

theorem Call.Sound.cons {requests : List (QueuedRequest M)} {sent : List (ℕ × QueuedResponse M)}
    {c : Call M} (h : c.Sound requests sent) (e : ℕ × QueuedResponse M) :
    c.Sound requests (e :: sent) := by
  obtain ⟨q, pc⟩ := c
  cases pc with
  | returned result =>
      obtain ⟨response, hmem, hres⟩ := h
      exact ⟨response, List.mem_cons_of_mem _ hmem, hres⟩
  | select | evict | answer | wait => exact h

theorem sound_call {cfg : RingConfig M} {s : RingState M} (h : Sound cfg s) (ts : ℤ) (req : M) :
    Sound cfg { s with calls := s.calls ++ [⟨⟨ts, req, s.calls.length⟩, .select⟩] } := by
  have hreq : ∀ {k : ℕ} {q : QueuedRequest M}, s.requests[k]? = some q →
      ((s.calls ++ [(⟨⟨ts, req, s.calls.length⟩, .select⟩ : Call M)]).map
        Call.queuedRequest)[k]? = some q := by
    intro k q hq
    rw [List.map_append]
    exact getElem?_concat_of_some hq _
  refine ⟨fun q hq => hreq (h.ring q hq), fun pc hpc => ?_, fun c hc => ?_, fun e he => ?_⟩
  · have hsound := h.threads pc hpc
    cases pc with
    | check q => exact hreq hsound
    | resolve q => exact hreq hsound
    | reply q response late => exact ⟨hreq hsound.1, hsound.2⟩
    | receive | close | addSlip => trivial
  · refine forall_mem_concat (fun c hc => ?_) trivial c hc
    have hsound := h.calls c hc
    obtain ⟨q, pc⟩ := c
    cases pc with
    | answer old => exact hreq hsound
    | returned result => exact hsound
    | select | evict | wait => trivial
  · obtain ⟨q, hq, hresp⟩ := h.sent e he
    exact ⟨q, hreq hq, hresp⟩

/-- A call that moves on, with nothing new to account for. -/
theorem sound_set {cfg : RingConfig M} {s : RingState M} (h : Sound cfg s) {i : ℕ}
    {q : QueuedRequest M} {pc : CallPc M} (hi : s.calls[i]? = some ⟨q, pc⟩) (pc' : CallPc M)
    (hpc : Call.Sound s.requests s.sent ⟨q, pc'⟩) :
    Sound cfg { s with calls := s.calls.set i ⟨q, pc'⟩ } := by
  have hreq : (s.calls.set i ⟨q, pc'⟩).map Call.queuedRequest = s.requests := requests_set hi pc'
  refine ⟨?_, ?_, ?_, ?_⟩ <;> simp only [RingState.requests, hreq]
  · exact h.ring
  · exact h.threads
  · exact forall_mem_set h.calls hpc i
  · exact h.sent

/-- A thread that moves on. -/
theorem sound_thread {cfg : RingConfig M} {s : RingState M} (h : Sound cfg s) (t : ℕ)
    (pc : ThreadPc M) (hpc : pc.Sound cfg s.requests) :
    Sound cfg { s with threads := s.threads.set t pc } :=
  ⟨h.ring, forall_mem_set h.threads hpc t, h.calls, h.sent⟩

/-- A response to a request of a call that waits. -/
theorem sound_deliver {cfg : RingConfig M} {s : RingState M} (hb : Balanced s) (h : Sound cfg s)
    {ch : ℕ} {q : QueuedRequest M} (hwait : s.calls[ch]? = some ⟨q, .wait⟩)
    {response : QueuedResponse M} {q' : QueuedRequest M} (hq : s.requests[ch]? = some q')
    (hresp : ResponseTo cfg q'.req response) :
    Sound cfg { s with
      calls := s.calls.set ch ⟨q, .returned (resolveResult response)⟩
      sent := (ch, response) :: s.sent } := by
  have hreq : (s.calls.set ch ⟨q, .returned (resolveResult response)⟩).map Call.queuedRequest =
    s.requests := requests_set hwait _
  have hown : q.responseChan = ch := hb.own ch _ hwait
  refine ⟨?_, ?_, ?_, ?_⟩ <;> simp only [RingState.requests, hreq]
  · exact h.ring
  · exact h.threads
  · refine forall_mem_set (fun c hc => (h.calls c hc).cons _) ?_ ch
    exact ⟨response, by simp [hown], rfl⟩
  · intro e he
    rcases List.mem_cons.1 he with rfl | hmem
    · exact ⟨q', hq, hresp⟩
    · exact h.sent e hmem

/-- **What is passed around.**  Every step keeps it sound. -/
theorem sound_step {cfg : RingConfig M} {s s' : RingState M} {a : RingAction M}
    (hb : Balanced s) (h : Sound cfg s) (hstep : ringStep cfg s a = some s') : Sound cfg s' := by
  cases ringStepped_of_ringStep hstep with
  | call ts req => exact sound_call h ts req
  | @enqueue i q hi hroom =>
      have hs := sound_set h hi .wait trivial
      refine ⟨forall_mem_concat hs.ring ?_, hs.threads, hs.calls, hs.sent⟩
      simpa only [RingState.requests, requests_set hi] using requests_of_call hb hi
  | full hi hfull => exact sound_set h hi .evict trivial
  | @handThread i t q hi ht =>
      refine sound_thread (sound_set h hi .wait trivial) t (.check q) ?_
      simpa only [ThreadPc.Sound, RingState.requests, requests_set hi] using requests_of_call hb hi
  | @handEvict i j q q' hi hj =>
      have hj' := getElem?_set_of_ne hi hj (by simp) ⟨q, .wait⟩
      refine sound_set (sound_set h hi .wait trivial) hj' (.answer q) ?_
      simpa only [Call.Sound, RingState.requests, requests_set hi] using requests_of_call hb hi
  | @evict i q old rest hi hring =>
      have hold : s.requests[old.responseChan]? = some old := h.ring old (by simp [hring])
      have hs := sound_set h hi (.answer old) hold
      refine ⟨fun p hp => hs.ring p ?_, hs.threads, hs.calls, hs.sent⟩
      rw [hring]
      exact List.mem_cons_of_mem _ hp
  | @answer i q q' old hi hwait =>
      have hold : s.requests[old.responseChan]? = some old :=
        h.calls _ (List.mem_of_getElem? hi)
      have hi' := getElem?_set_of_ne hwait hi (by simp)
        ⟨q', .returned (resolveResult evictedResponse)⟩
      exact sound_set (sound_deliver hb h hwait hold (Or.inl rfl)) hi' .select trivial
  | @take t q rest ht hring =>
      have hs := sound_thread h t (.check q) (h.ring q (by simp [hring]))
      refine ⟨fun p hp => hs.ring p ?_, hs.threads, hs.calls, hs.sent⟩
      rw [hring]
      exact List.mem_cons_of_mem _ hp
  | @checkOld t now q ht hold =>
      have hq := h.threads _ (List.mem_of_getElem? ht)
      exact sound_thread h t (.reply q tooOldResponse true) ⟨hq, Or.inr (Or.inl rfl)⟩
  | @checkFresh t now q ht hfresh =>
      have hq := h.threads _ (List.mem_of_getElem? ht)
      exact sound_thread h t (.resolve q) hq
  | @resolved t q response ht hres =>
      have hq := h.threads _ (List.mem_of_getElem? ht)
      exact sound_thread h t (.reply q response false) ⟨hq, Or.inr (Or.inr hres)⟩
  | @reply t q q' response late ht hwait =>
      obtain ⟨hq, hresp⟩ := h.threads _ (List.mem_of_getElem? ht)
      exact sound_thread (sound_deliver hb h hwait hq hresp) t (.close q late) trivial
  | @close t q late ht =>
      have hpc : ThreadPc.Sound cfg s.requests (if late then .addSlip else .receive) := by
        cases late <;> trivial
      have hs := sound_thread h t _ hpc
      exact ⟨hs.ring, hs.threads, hs.calls, hs.sent⟩
  | misuse hmis => exact absurd hmis (not_misuse hb)
  | @addSlip t ht =>
      have hs := sound_thread h t .receive trivial
      exact ⟨hs.ring, hs.threads, hs.calls, hs.sent⟩

/-! ## Every run -/

theorem sound_start (cfg : RingConfig M) : Sound cfg (ringStart cfg) := by
  refine ⟨fun q hq => absurd hq (by simp [ringStart]), fun pc hpc => ?_,
    fun c hc => absurd hc (by simp [ringStart]), fun e he => absurd he (by simp [ringStart])⟩
  obtain rfl := List.eq_of_mem_replicate hpc
  trivial

/-- Both invariants hold in every state of every run. -/
theorem balanced_sound_run {cfg : RingConfig M} {acts : List (RingAction M)} {s : RingState M}
    (hrun : run (ringStep cfg) (ringStart cfg) acts = some s) : Balanced s ∧ Sound cfg s :=
  run_invariant (fun s => Balanced s ∧ Sound cfg s) ⟨balanced_start cfg, sound_start cfg⟩
    (fun _ _ _ h hstep => ⟨balanced_step h.1 hstep, sound_step h.1 h.2 hstep⟩) hrun

/-- The places a request can be at. -/
inductive Place where
  | ring (position : ℕ)
  | thread (t : ℕ)
  | evictor (i : ℕ)
  | answered

/-- The request of channel `k` is at a place. -/
def At (s : RingState M) (k : ℕ) : Place → Prop
  | .ring position => ∃ q, s.ring[position]? = some q ∧ q.responseChan = k
  | .thread t => ∃ pc, s.threads[t]? = some pc ∧ pc.holds k = true
  | .evictor i => ∃ c, s.calls[i]? = some c ∧ c.holds k = true
  | .answered => ∃ response, (k, response) ∈ s.sent

/-- The count that says how often the request of channel `k` is at such a place. -/
def RingState.countAt (s : RingState M) (k : ℕ) : Place → ℕ
  | .ring _ => s.inRing k
  | .thread _ => s.withThreads k
  | .evictor _ => s.withEvictors k
  | .answered => s.responses k

theorem countAt_pos {s : RingState M} {k : ℕ} {p : Place} (h : At s k p) : 0 < s.countAt k p := by
  cases p with
  | ring position =>
      obtain ⟨q, hq, hchan⟩ := h
      exact countP_pos_index.2 ⟨position, q, hq, beq_iff_eq.2 hchan⟩
  | thread t =>
      obtain ⟨pc, ht, hpc⟩ := h
      exact countP_pos_index.2 ⟨t, pc, ht, hpc⟩
  | evictor i =>
      obtain ⟨c, hi, hc⟩ := h
      exact countP_pos_index.2 ⟨i, c, hi, hc⟩
  | answered =>
      obtain ⟨response, hmem⟩ := h
      exact List.countP_pos_iff.2 ⟨_, hmem, beq_self_eq_true k⟩

/-- A request that is counted once is at one place at most. -/
theorem at_unique {s : RingState M} {k : ℕ}
    (h : s.inRing k + s.withThreads k + s.withEvictors k + s.responses k = 1) {p p' : Place}
    (hp : At s k p) (hp' : At s k p') : p = p' := by
  have hpos := countAt_pos hp
  have hpos' := countAt_pos hp'
  cases p with
  | ring position =>
      cases p' with
      | ring position' =>
          obtain ⟨q, hq, hchan⟩ := hp
          obtain ⟨q', hq', hchan'⟩ := hp'
          have hle : s.inRing k ≤ 1 := by omega
          exact congrArg _ (index_unique hle hq (beq_iff_eq.2 hchan) hq' (beq_iff_eq.2 hchan'))
      | thread | evictor | answered =>
          simp only [RingState.countAt] at hpos hpos'
          omega
  | thread t =>
      cases p' with
      | thread t' =>
          obtain ⟨pc, ht, hpc⟩ := hp
          obtain ⟨pc', ht', hpc'⟩ := hp'
          have hle : s.withThreads k ≤ 1 := by omega
          exact congrArg _ (index_unique hle ht hpc ht' hpc')
      | ring | evictor | answered =>
          simp only [RingState.countAt] at hpos hpos'
          omega
  | evictor i =>
      cases p' with
      | evictor i' =>
          obtain ⟨c, hi, hc⟩ := hp
          obtain ⟨c', hi', hc'⟩ := hp'
          have hle : s.withEvictors k ≤ 1 := by omega
          exact congrArg _ (index_unique hle hi hc hi' hc')
      | ring | thread | answered =>
          simp only [RingState.countAt] at hpos hpos'
          omega
  | answered =>
      cases p' with
      | answered => rfl
      | ring | thread | evictor =>
          simp only [RingState.countAt] at hpos hpos'
          omega

/-- A request that is counted once is at one place. -/
theorem existsUnique_at {s : RingState M} {k : ℕ}
    (h : s.inRing k + s.withThreads k + s.withEvictors k + s.responses k = 1) :
    ∃! p, At s k p := by
  have hsome : ∃ p, At s k p := by
    by_cases hring : 0 < s.inRing k
    · obtain ⟨position, q, hq, hchan⟩ := countP_pos_index.1 hring
      exact ⟨.ring position, q, hq, beq_iff_eq.1 hchan⟩
    by_cases hthread : 0 < s.withThreads k
    · obtain ⟨t, pc, ht, hpc⟩ := countP_pos_index.1 hthread
      exact ⟨.thread t, pc, ht, hpc⟩
    by_cases hevictor : 0 < s.withEvictors k
    · obtain ⟨i, c, hi, hc⟩ := countP_pos_index.1 hevictor
      exact ⟨.evictor i, c, hi, hc⟩
    have hsent : 0 < s.responses k := by omega
    obtain ⟨⟨k', response⟩, hmem, hk⟩ := List.countP_pos_iff.1 hsent
    obtain rfl : k' = k := beq_iff_eq.1 hk
    exact ⟨.answered, response, hmem⟩
  obtain ⟨p, hp⟩ := hsome
  exact ⟨p, hp, fun p' hp' => at_unique h hp' hp⟩

/-- **Exactly one response.**  In every state of every run, a request that was put
into the ring is at exactly one place; at most one response was sent on a channel,
and it is a response to the request of the call that made the channel; nothing was
sent on, and nothing closed, a closed channel; and a call that has returned has
returned the response sent on its own channel: the message and the round trip time, or
the error and that time. -/
theorem exactly_one_response (cfg : RingConfig M) (acts : List (RingAction M)) (s : RingState M)
    (hrun : run (ringStep cfg) (ringStart cfg) acts = some s) :
    (∀ (i : ℕ) (c : Call M), s.calls[i]? = some c → (c.pc = .wait ∨ ∃ r, c.pc = .returned r) →
        ∃! p, At s i p) ∧
      (∀ k, (s.sent.filter fun e => e.1 == k).length ≤ 1) ∧
      (∀ (k : ℕ) (response : QueuedResponse M), (k, response) ∈ s.sent →
        ∃ c, s.calls[k]? = some c ∧ ResponseTo cfg c.queuedRequest.req response) ∧
      s.panicked = false ∧
      ∀ (i : ℕ) (c : Call M) (r : Option M × ℤ × Option String), s.calls[i]? = some c →
        c.pc = .returned r → ∃ response, (i, response) ∈ s.sent ∧
          (response.err = none → r = (response.resolved, response.rtt, none)) ∧
          ∀ err, response.err = some err → r = (none, response.rtt, some err) := by
  obtain ⟨hb, hs⟩ := balanced_sound_run hrun
  refine ⟨fun i c hi hpc => ?_, fun k => ?_, fun k response hmem => ?_, hb.alive,
    fun i c r hi hpc => ?_⟩
  · -- the call is the only one with its channel, so the books of the channel come to one
    have hchan := hb.own i c hi
    have henq : c.enqueued i = true := by
      rcases hpc with hpc | ⟨r, hpc⟩ <;> rw [Call.enqueued, hpc] <;> exact beq_iff_eq.2 hchan
    have hpos : 0 < s.enqueued i := countP_pos_index.2 ⟨i, c, hi, henq⟩
    have hle := enqueued_le_one hb i
    have hcons := (hb.at' i).conserved
    exact existsUnique_at (by omega)
  · rw [← List.countP_eq_length_filter]
    have hle := enqueued_le_one hb k
    have hcons := (hb.at' k).conserved
    rw [RingState.responses] at hcons
    omega
  · obtain ⟨q, hq, hresp⟩ := hs.sent _ hmem
    rw [RingState.requests, List.getElem?_map, Option.map_eq_some_iff] at hq
    obtain ⟨c, hc, rfl⟩ := hq
    exact ⟨c, hc, hresp⟩
  · have hsound := hs.calls c (List.mem_of_getElem? hi)
    rw [Call.Sound, hpc, hb.own i c hi] at hsound
    obtain ⟨response, hmem, rfl⟩ := hsound
    refine ⟨response, hmem, fun hnone => ?_, fun err herr => ?_⟩
    · rw [resolveResult, hnone]
    · rw [resolveResult, herr]

/-- A ring of one place and one thread; every exchange returns. -/
def oneClient : RingConfig String :=
  ⟨1, 1, fun d => decide (250000000 < d), fun _ _ => true⟩

/-- Two calls, of which the second evicts the first and is then served too late. -/
def evictingCalls : List (RingAction String) :=
  [.call 0 "first", .select 0, .call 0 "second", .select 1, .evict 1, .answer 1, .select 1,
    .take 0, .check 0 300000000, .reply 0, .close 0, .addSlip 0]

/-- Where this leads: both calls have their response. -/
def bothAnswered : RingState String :=
  ⟨[], [⟨⟨0, "first", 0⟩, .returned (none, 0, some "Evicted")⟩,
      ⟨⟨0, "second", 1⟩, .returned (none, 0, some "Request too old")⟩],
    [.receive], [1], 1, [(1, tooOldResponse), (0, evictedResponse)], false⟩

theorem exactly_one_response_evicted :
    run (ringStep oneClient) (ringStart oneClient) evictingCalls = some bothAnswered ∧
      (∃! p, At bothAnswered 0 p) ∧ ∃! p, At bothAnswered 1 p := by
  have hrun : run (ringStep oneClient) (ringStart oneClient) evictingCalls = some bothAnswered := by
    decide +kernel
  have hplace := (exactly_one_response oneClient evictingCalls bothAnswered hrun).1
  exact ⟨hrun, hplace 0 _ rfl (Or.inr ⟨_, rfl⟩), hplace 1 _ rfl (Or.inr ⟨_, rfl⟩)⟩

end Jojo
