import Mathlib.Data.Int.Notation
import GoExperiments.Lib.Runs
import GoExperiments.Lib.Census

/-!
# The ring between requests and resolver threads

The model of `resolveViaResolverThreads` and `resolverThread` of `jojo/jojo.go`
and of the channels between them.  A call puts its request into the ring; when the
ring is full it takes the oldest request out, answers it with an error and tries
again.  Resolver threads take requests out of the ring, resolve and answer them.
Every channel operation is a step of its own, and calls and threads take steps in
any order.

* `ringStep` — the system, with every channel operation that can panic.
* `RingStepped`, `ringStepped_of_ringStep` — what a step can do.  The invariants are
  proved from these cases, and never unfold `ringStep`.
-/

namespace Jojo

open Runs Census

variable {M : Type}

/-- `QueuedResponse`; durations are in nanoseconds. -/
structure QueuedResponse (M : Type) where
  resolved : Option M
  rtt : ℤ
  err : Option String
  deriving DecidableEq

/-- `QueuedRequest`.  A channel is named by the number of the call that makes it. -/
structure QueuedRequest (M : Type) where
  ts : ℤ
  req : M
  responseChan : ℕ
  deriving DecidableEq

/-- The response to a request that is taken out of a full ring. -/
def evictedResponse : QueuedResponse M := ⟨none, 0, some "Evicted"⟩

/-- The response to a request that has waited too long. -/
def tooOldResponse : QueuedResponse M := ⟨none, 0, some "Request too old"⟩

/-- What a receive from a closed channel gives. -/
def zeroResponse : QueuedResponse M := ⟨none, 0, none⟩

/-- The results of `resolveViaResolverThreads`, from the response it receives. -/
def resolveResult (response : QueuedResponse M) : Option M × ℤ × Option String :=
  match response.err with
  | some err => (none, response.rtt, some err)
  | none => (response.resolved, response.rtt, none)

/-- Where a call is. -/
inductive CallPc (M : Type) where
  /-- At the `select`. -/
  | select
  /-- At `old := <-resolverRing`. -/
  | evict
  /-- At `old.responseChan <- evictedResponse`. -/
  | answer (old : QueuedRequest M)
  /-- At `response := <-responseChan`. -/
  | wait
  /-- It has returned. -/
  | returned (result : Option M × ℤ × Option String)
  deriving DecidableEq

/-- A call of `resolveViaResolverThreads`. -/
structure Call (M : Type) where
  queuedRequest : QueuedRequest M
  pc : CallPc M
  deriving DecidableEq

/-- Where a resolver thread is; `late` says that the request was too old. -/
inductive ThreadPc (M : Type) where
  /-- At `<-resolverRing`. -/
  | receive
  /-- Before the check of the request's age. -/
  | check (queuedRequest : QueuedRequest M)
  /-- In `syncResolve`. -/
  | resolve (queuedRequest : QueuedRequest M)
  /-- At `queuedRequest.responseChan <- response`. -/
  | reply (queuedRequest : QueuedRequest M) (response : QueuedResponse M) (late : Bool)
  /-- At `close(queuedRequest.responseChan)`. -/
  | close (queuedRequest : QueuedRequest M) (late : Bool)
  /-- At `atomic.AddUint32(&slip, 1)`. -/
  | addSlip
  deriving DecidableEq

/-- What the system depends on: the capacity of the ring, the number of threads, the
test `d.Seconds() > *maxRTT` on a duration, and what `syncResolve` may return for a
message. -/
structure RingConfig (M : Type) where
  maxClients : ℕ
  threads : ℕ
  tooOld : ℤ → Bool
  resolves : M → QueuedResponse M → Bool

/-- The ring with its oldest request first, the calls in the order in which they are
made, the threads, the closed channels and the counter of late requests; `sent` is
the history of responses, newest first, and `panicked` says that the program died. -/
structure RingState (M : Type) where
  ring : List (QueuedRequest M)
  calls : List (Call M)
  threads : List (ThreadPc M)
  closed : List ℕ
  slip : UInt32
  sent : List (ℕ × QueuedResponse M)
  panicked : Bool
  deriving DecidableEq

/-- The steps. -/
inductive RingAction (M : Type) where
  /-- A call is made. -/
  | call (ts : ℤ) (req : M)
  /-- Call `i` executes its `select`. -/
  | select (i : ℕ)
  /-- The `select` of call `i` meets thread `t`, which waits for a request. -/
  | handThread (i t : ℕ)
  /-- The `select` of call `i` meets call `j`, which waits for a request to evict. -/
  | handEvict (i j : ℕ)
  /-- Call `i` takes the oldest request out of the ring. -/
  | evict (i : ℕ)
  /-- Call `i` answers the request it has taken out. -/
  | answer (i : ℕ)
  /-- Call `i` receives from its channel after that was closed. -/
  | receiveClosed (i : ℕ)
  /-- Thread `t` takes a request. -/
  | take (t : ℕ)
  /-- Thread `t` checks the age of its request at time `now`. -/
  | check (t : ℕ) (now : ℤ)
  /-- `syncResolve` returns in thread `t`. -/
  | resolved (t : ℕ) (response : QueuedResponse M)
  /-- Thread `t` answers its request. -/
  | reply (t : ℕ)
  /-- Thread `t` closes the channel of its request. -/
  | close (t : ℕ)
  /-- Thread `t` counts a late request. -/
  | addSlip (t : ℕ)
  deriving DecidableEq

/-- A send on the unbuffered channel `ch`: a panic when it is closed, and otherwise
it takes place when the call that made the channel is waiting. -/
def deliver (s : RingState M) (ch : ℕ) (response : QueuedResponse M) : Option (RingState M) :=
  if ch ∈ s.closed then some { s with panicked := true }
  else match s.calls[ch]? with
    | some ⟨q, .wait⟩ =>
        some { s with
          calls := s.calls.set ch ⟨q, .returned (resolveResult response)⟩
          sent := (ch, response) :: s.sent }
    | _ => none

/-- A step of a program that has not panicked. -/
def liveStep (cfg : RingConfig M) (s : RingState M) : RingAction M → Option (RingState M)
  | .call ts req =>
      some { s with calls := s.calls ++ [⟨⟨ts, req, s.calls.length⟩, .select⟩] }
  | .select i => match s.calls[i]? with
      | some ⟨q, .select⟩ =>
          if s.ring.length < cfg.maxClients then
            some { s with ring := s.ring ++ [q], calls := s.calls.set i ⟨q, .wait⟩ }
          else some { s with calls := s.calls.set i ⟨q, .evict⟩ }
      | _ => none
  | .handThread i t => match s.ring, s.calls[i]?, s.threads[t]? with
      | [], some ⟨q, .select⟩, some .receive =>
          some { s with
            calls := s.calls.set i ⟨q, .wait⟩
            threads := s.threads.set t (.check q) }
      | _, _, _ => none
  | .handEvict i j => match s.ring, s.calls[i]?, s.calls[j]? with
      | [], some ⟨q, .select⟩, some ⟨q', .evict⟩ =>
          some { s with calls := (s.calls.set i ⟨q, .wait⟩).set j ⟨q', .answer q⟩ }
      | _, _, _ => none
  | .evict i => match s.ring, s.calls[i]? with
      | old :: rest, some ⟨q, .evict⟩ =>
          some { s with ring := rest, calls := s.calls.set i ⟨q, .answer old⟩ }
      | _, _ => none
  | .answer i => match s.calls[i]? with
      | some ⟨q, .answer old⟩ =>
          (deliver s old.responseChan evictedResponse).map fun s' =>
            { s' with calls := s'.calls.set i ⟨q, .select⟩ }
      | _ => none
  | .receiveClosed i => match s.calls[i]? with
      | some ⟨q, .wait⟩ =>
          if i ∈ s.closed then
            some { s with calls := s.calls.set i ⟨q, .returned (resolveResult zeroResponse)⟩ }
          else none
      | _ => none
  | .take t => match s.ring, s.threads[t]? with
      | q :: rest, some .receive =>
          some { s with ring := rest, threads := s.threads.set t (.check q) }
      | _, _ => none
  | .check t now => match s.threads[t]? with
      | some (.check q) =>
          if cfg.tooOld (now - q.ts) then
            some { s with threads := s.threads.set t (.reply q tooOldResponse true) }
          else some { s with threads := s.threads.set t (.resolve q) }
      | _ => none
  | .resolved t response => match s.threads[t]? with
      | some (.resolve q) =>
          if cfg.resolves q.req response then
            some { s with threads := s.threads.set t (.reply q response false) }
          else none
      | _ => none
  | .reply t => match s.threads[t]? with
      | some (.reply q response late) =>
          (deliver s q.responseChan response).map fun s' =>
            { s' with threads := s'.threads.set t (.close q late) }
      | _ => none
  | .close t => match s.threads[t]? with
      | some (.close q late) =>
          if q.responseChan ∈ s.closed then some { s with panicked := true }
          else some { s with
            threads := s.threads.set t (if late then .addSlip else .receive)
            closed := q.responseChan :: s.closed }
      | _ => none
  | .addSlip t => match s.threads[t]? with
      | some .addSlip =>
          some { s with threads := s.threads.set t .receive, slip := s.slip + 1 }
      | _ => none

/-- A step of the system; a program that has panicked takes none. -/
def ringStep (cfg : RingConfig M) (s : RingState M) (a : RingAction M) : Option (RingState M) :=
  if s.panicked then none else liveStep cfg s a

/-- Before the first call. -/
def ringStart (cfg : RingConfig M) : RingState M :=
  ⟨[], [], List.replicate cfg.threads .receive, [], 0, [], false⟩

/-! ## What a step can do -/

/-- A step that uses a response channel after it was closed. -/
inductive Misuse (s : RingState M) : RingAction M → Prop
  | answer {i : ℕ} {q old : QueuedRequest M} (hi : s.calls[i]? = some ⟨q, .answer old⟩)
      (hclosed : old.responseChan ∈ s.closed) : Misuse s (.answer i)
  | receive {i : ℕ} {q : QueuedRequest M} (hi : s.calls[i]? = some ⟨q, .wait⟩)
      (hclosed : i ∈ s.closed) : Misuse s (.receiveClosed i)
  | reply {t : ℕ} {q : QueuedRequest M} {response : QueuedResponse M} {late : Bool}
      (ht : s.threads[t]? = some (.reply q response late))
      (hclosed : q.responseChan ∈ s.closed) : Misuse s (.reply t)
  | close {t : ℕ} {q : QueuedRequest M} {late : Bool} (ht : s.threads[t]? = some (.close q late))
      (hclosed : q.responseChan ∈ s.closed) : Misuse s (.close t)

/-- What a step can do. -/
inductive RingStepped (cfg : RingConfig M) (s : RingState M) : RingAction M → RingState M → Prop
  | call (ts : ℤ) (req : M) :
      RingStepped cfg s (.call ts req)
        { s with calls := s.calls ++ [⟨⟨ts, req, s.calls.length⟩, .select⟩] }
  | enqueue {i : ℕ} {q : QueuedRequest M} (hi : s.calls[i]? = some ⟨q, .select⟩)
      (hroom : s.ring.length < cfg.maxClients) :
      RingStepped cfg s (.select i)
        { s with ring := s.ring ++ [q], calls := s.calls.set i ⟨q, .wait⟩ }
  | full {i : ℕ} {q : QueuedRequest M} (hi : s.calls[i]? = some ⟨q, .select⟩)
      (hfull : ¬ s.ring.length < cfg.maxClients) :
      RingStepped cfg s (.select i) { s with calls := s.calls.set i ⟨q, .evict⟩ }
  | handThread {i t : ℕ} {q : QueuedRequest M} (hi : s.calls[i]? = some ⟨q, .select⟩)
      (ht : s.threads[t]? = some .receive) :
      RingStepped cfg s (.handThread i t)
        { s with calls := s.calls.set i ⟨q, .wait⟩, threads := s.threads.set t (.check q) }
  | handEvict {i j : ℕ} {q q' : QueuedRequest M} (hi : s.calls[i]? = some ⟨q, .select⟩)
      (hj : s.calls[j]? = some ⟨q', .evict⟩) :
      RingStepped cfg s (.handEvict i j)
        { s with calls := (s.calls.set i ⟨q, .wait⟩).set j ⟨q', .answer q⟩ }
  | evict {i : ℕ} {q old : QueuedRequest M} {rest : List (QueuedRequest M)}
      (hi : s.calls[i]? = some ⟨q, .evict⟩) (hring : s.ring = old :: rest) :
      RingStepped cfg s (.evict i) { s with ring := rest, calls := s.calls.set i ⟨q, .answer old⟩ }
  | answer {i : ℕ} {q q' old : QueuedRequest M} (hi : s.calls[i]? = some ⟨q, .answer old⟩)
      (hwait : s.calls[old.responseChan]? = some ⟨q', .wait⟩) :
      RingStepped cfg s (.answer i)
        { s with
          calls := (s.calls.set old.responseChan
            ⟨q', .returned (resolveResult evictedResponse)⟩).set i ⟨q, .select⟩
          sent := (old.responseChan, evictedResponse) :: s.sent }
  | take {t : ℕ} {q : QueuedRequest M} {rest : List (QueuedRequest M)}
      (ht : s.threads[t]? = some .receive) (hring : s.ring = q :: rest) :
      RingStepped cfg s (.take t) { s with ring := rest, threads := s.threads.set t (.check q) }
  | checkOld {t : ℕ} {now : ℤ} {q : QueuedRequest M} (ht : s.threads[t]? = some (.check q))
      (hold : cfg.tooOld (now - q.ts) = true) :
      RingStepped cfg s (.check t now)
        { s with threads := s.threads.set t (.reply q tooOldResponse true) }
  | checkFresh {t : ℕ} {now : ℤ} {q : QueuedRequest M} (ht : s.threads[t]? = some (.check q))
      (hfresh : cfg.tooOld (now - q.ts) = false) :
      RingStepped cfg s (.check t now) { s with threads := s.threads.set t (.resolve q) }
  | resolved {t : ℕ} {q : QueuedRequest M} {response : QueuedResponse M}
      (ht : s.threads[t]? = some (.resolve q)) (hres : cfg.resolves q.req response = true) :
      RingStepped cfg s (.resolved t response)
        { s with threads := s.threads.set t (.reply q response false) }
  | reply {t : ℕ} {q q' : QueuedRequest M} {response : QueuedResponse M} {late : Bool}
      (ht : s.threads[t]? = some (.reply q response late))
      (hwait : s.calls[q.responseChan]? = some ⟨q', .wait⟩) :
      RingStepped cfg s (.reply t)
        { s with
          calls := s.calls.set q.responseChan ⟨q', .returned (resolveResult response)⟩
          threads := s.threads.set t (.close q late)
          sent := (q.responseChan, response) :: s.sent }
  | close {t : ℕ} {q : QueuedRequest M} {late : Bool} (ht : s.threads[t]? = some (.close q late)) :
      RingStepped cfg s (.close t)
        { s with
          threads := s.threads.set t (if late then .addSlip else .receive)
          closed := q.responseChan :: s.closed }
  | addSlip {t : ℕ} (ht : s.threads[t]? = some .addSlip) :
      RingStepped cfg s (.addSlip t)
        { s with threads := s.threads.set t .receive, slip := s.slip + 1 }
  | misuse {a : RingAction M} (h : Misuse s a) (s' : RingState M) : RingStepped cfg s a s'

theorem deliver_cases {s s' : RingState M} {ch : ℕ} {response : QueuedResponse M}
    (h : deliver s ch response = some s') :
    ch ∈ s.closed ∨ ∃ q, s.calls[ch]? = some ⟨q, .wait⟩ ∧
      s' = { s with
        calls := s.calls.set ch ⟨q, .returned (resolveResult response)⟩
        sent := (ch, response) :: s.sent } := by
  rw [deliver] at h
  split at h
  · rename_i hclosed
    exact Or.inl hclosed
  · split at h
    · rename_i q hwait
      exact Or.inr ⟨q, hwait, by simpa using h.symm⟩
    · exact absurd h (by simp)

theorem ringStepped_of_ringStep {cfg : RingConfig M} {s s' : RingState M} {a : RingAction M}
    (h : ringStep cfg s a = some s') : RingStepped cfg s a s' := by
  rw [ringStep] at h
  split at h
  · exact absurd h (by simp)
  cases a with
  | call ts req =>
      cases h
      exact .call ts req
  | select i =>
      simp only [liveStep] at h
      split at h
      · rename_i q hi
        split at h
        · rename_i hroom
          cases h; exact .enqueue hi hroom
        · rename_i hfull
          cases h; exact .full hi hfull
      · exact absurd h (by simp)
  | handThread i t =>
      simp only [liveStep] at h
      split at h
      · rename_i q _ hi ht
        cases h; exact .handThread hi ht
      · exact absurd h (by simp)
  | handEvict i j =>
      simp only [liveStep] at h
      split at h
      · rename_i q q' _ hi hj
        cases h; exact .handEvict hi hj
      · exact absurd h (by simp)
  | evict i =>
      simp only [liveStep] at h
      split at h
      · rename_i old rest q hring hi
        cases h; exact .evict hi hring
      · exact absurd h (by simp)
  | answer i =>
      simp only [liveStep] at h
      split at h
      · rename_i q old hi
        obtain ⟨s₁, hdeliver, rfl⟩ := Option.map_eq_some_iff.1 h
        rcases deliver_cases hdeliver with hclosed | ⟨q', hwait, rfl⟩
        · exact .misuse (.answer hi hclosed) _
        · exact .answer hi hwait
      · exact absurd h (by simp)
  | receiveClosed i =>
      simp only [liveStep] at h
      split at h
      · rename_i q hi
        split at h
        · rename_i hclosed
          exact .misuse (.receive hi hclosed) _
        · exact absurd h (by simp)
      · exact absurd h (by simp)
  | take t =>
      simp only [liveStep] at h
      split at h
      · rename_i q rest hring ht
        cases h; exact .take ht hring
      · exact absurd h (by simp)
  | check t now =>
      simp only [liveStep] at h
      split at h
      · rename_i q ht
        split at h
        · rename_i hold
          cases h; exact .checkOld ht hold
        · rename_i hfresh
          cases h; exact .checkFresh ht (by simpa using hfresh)
      · exact absurd h (by simp)
  | resolved t response =>
      simp only [liveStep] at h
      split at h
      · rename_i q ht
        split at h
        · rename_i hres
          cases h; exact .resolved ht hres
        · exact absurd h (by simp)
      · exact absurd h (by simp)
  | reply t =>
      simp only [liveStep] at h
      split at h
      · rename_i q response late ht
        obtain ⟨s₁, hdeliver, rfl⟩ := Option.map_eq_some_iff.1 h
        rcases deliver_cases hdeliver with hclosed | ⟨q', hwait, rfl⟩
        · exact .misuse (.reply ht hclosed) _
        · exact .reply ht hwait
      · exact absurd h (by simp)
  | close t =>
      simp only [liveStep] at h
      split at h
      · rename_i q late ht
        split at h
        · rename_i hclosed
          exact .misuse (.close ht hclosed) _
        · cases h; exact .close ht
      · exact absurd h (by simp)
  | addSlip t =>
      simp only [liveStep] at h
      split at h
      · rename_i ht
        cases h; exact .addSlip ht
      · exact absurd h (by simp)

end Jojo
