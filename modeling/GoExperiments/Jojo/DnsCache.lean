import GoExperiments.Lib.Runs
import GoExperiments.Jojo.Route

/-!
# Where cached answers come from

Calls of `route` one after the other, with a clock that does not go back.  The cache
may forget any value at any time, and otherwise returns the last one added under a
key; `history` keeps every response the upstream servers have returned, with the
request it was returned for and the time it was stored at.

* `Recorded`, `recorded_step`, `recorded_run` — every cached value is one of the
  history, stored under the key of the request it was returned for.
* `cached_answers_sound` — an answer that is copied from the cache without asking
  the upstream servers is a response of the history that is still valid; an answer
  copied from a value no longer valid is only sent after they were asked in vain.
-/

namespace Jojo

open Runs GoMap

/-- A response of the upstream servers. -/
structure Exchange where
  req : Msg
  response : Msg
  time : ℤ
  deriving DecidableEq

/-- The cached value that is made of it. -/
def Exchange.cacheVal (e : Exchange) : CacheVal :=
  ⟨e.time + getMinTTL (resolvedMsg e.response), resolvedMsg e.response⟩

/-- The cache, the history, newest first, and the clock. -/
structure RouteState where
  cache : Map CacheKey CacheVal
  history : List Exchange
  clock : ℤ
  deriving DecidableEq

/-- A call. -/
structure RouteCall where
  req : Msg
  seen : Seen

/-- The cache after a call. -/
def cacheAfter (cache : Map CacheKey CacheVal) (routed : Routed) : Map CacheKey CacheVal :=
  match routed.stored with
  | some (key, cacheVal) => cache.insert key cacheVal
  | none => cache

/-- The history after a call. -/
def historyAfter (history : List Exchange) (call : RouteCall) (routed : Routed) : List Exchange :=
  match routed.asked, call.seen.upstream with
  | some _, .ok response => ⟨call.req, response, call.seen.later⟩ :: history
  | _, _ => history

/-- A call, with a clock that has not gone back. -/
def routeStep (cfg : RouteConfig) (s : RouteState) (call : RouteCall) : Option RouteState :=
  let routed := route cfg s.cache call.req call.seen
  if s.clock ≤ call.seen.now ∧ call.seen.now ≤ call.seen.later then
    some ⟨cacheAfter s.cache routed, historyAfter s.history call routed, call.seen.later⟩
  else none

/-- Before the first call. -/
def routeStart (clock : ℤ) : RouteState := ⟨∅, [], clock⟩

theorem routeStep_eq_some {cfg : RouteConfig} {s s' : RouteState} {call : RouteCall}
    (hstep : routeStep cfg s call = some s') :
    s.clock ≤ call.seen.now ∧ call.seen.now ≤ call.seen.later ∧
      s' = ⟨cacheAfter s.cache (route cfg s.cache call.req call.seen),
        historyAfter s.history call (route cfg s.cache call.req call.seen), call.seen.later⟩ := by
  simp only [routeStep] at hstep
  split at hstep
  · rename_i hclock
    exact ⟨hclock.1, hclock.2, (Option.some.inj hstep).symm⟩
  · exact absurd hstep (by simp)

/-! ## Every cached value is one of the history -/

/-- Every cached value is one of the history. -/
def Recorded (cfg : RouteConfig) (s : RouteState) : Prop :=
  ∀ key v, s.cache.lookup key = some v → ∃ e ∈ s.history,
    getKey cfg e.req = .ok key ∧ v = e.cacheVal ∧ e.time ≤ s.clock

theorem recorded_start (cfg : RouteConfig) (clock : ℤ) : Recorded cfg (routeStart clock) := by
  intro key v hv
  exact absurd hv (by simp [routeStart])

/-- A value stays recorded when the history grows and time passes. -/
theorem Recorded.mono {cfg : RouteConfig} {s : RouteState} (h : Recorded cfg s)
    {history : List Exchange} (hsub : ∀ e ∈ s.history, e ∈ history) {clock : ℤ}
    (hclock : s.clock ≤ clock) : Recorded cfg ⟨s.cache, history, clock⟩ := by
  intro key v hv
  obtain ⟨e, he, hkey, hval, htime⟩ := h key v hv
  exact ⟨e, hsub e he, hkey, hval, htime.trans hclock⟩

/-- **One call.** -/
theorem recorded_step {cfg : RouteConfig} {s s' : RouteState} {call : RouteCall}
    (h : Recorded cfg s) (hstep : routeStep cfg s call = some s') : Recorded cfg s' := by
  obtain ⟨hclock, hlater, rfl⟩ := routeStep_eq_some hstep
  have hle : s.clock ≤ call.seen.later := hclock.trans hlater
  have hroute := routing_route cfg s.cache call.req call.seen
  generalize route cfg s.cache call.req call.seen = routed at hroute
  cases hroute with
  | refused | special | fresh | slipped => exact h.mono (fun e he => he) hle
  | failed hkey hup =>
      simp only [historyAfter, hup]
      exact h.mono (fun e he => he) hle
  | stale hkey hv hnow hup =>
      simp only [historyAfter, hup]
      exact h.mono (fun e he => he) hle
  | @resolved key m hkey hup =>
      simp only [historyAfter, hup]
      intro key' v hv
      by_cases heq : key' = key
      · subst heq
        rw [show cacheAfter s.cache _ = s.cache.insert key' _ from rfl, Finmap.lookup_insert] at hv
        cases hv
        exact ⟨_, List.mem_cons_self .., hkey, rfl, le_refl _⟩
      · rw [show cacheAfter s.cache _ = s.cache.insert key _ from rfl,
          Finmap.lookup_insert_of_ne _ heq] at hv
        exact h.mono (fun e he => List.mem_cons_of_mem _ he) hle key' v hv

theorem recorded_run {cfg : RouteConfig} {clock : ℤ} {calls : List RouteCall} {s : RouteState}
    (hrun : run (routeStep cfg) (routeStart clock) calls = some s) : Recorded cfg s :=
  run_invariant (Recorded cfg) (recorded_start cfg clock) (fun _ _ _ => recorded_step) hrun

/-! ## What is sent -/

/-- A reply that `route` makes itself: a refusal, the reply to a special name, or the
reply of the slip branch. -/
def OwnReply (cfg : RouteConfig) (call : RouteCall) (reply : Reply) : Prop :=
  (∃ err, getKey cfg call.req = .error err ∧
      reply = .write (cfg.lib.setRcode call.req rcodeRefused)) ∨
    (∃ m, handleSpecialNames cfg call.req = some m ∧ reply = .write m) ∨
    slips call.seen.slipValue = true ∧ reply = slipReply cfg call.req call.seen

/-- The exchange was made for a request with the key of the call's, and its response,
as the call's own, is what is sent. -/
def AnswersWith (cfg : RouteConfig) (call : RouteCall) (e : Exchange) (reply : Reply) : Prop :=
  (∃ key, getKey cfg call.req = .ok key ∧ getKey cfg e.req = .ok key) ∧
    reply = sendFor cfg call.req call.seen (copyFor call.req (resolvedMsg e.response))

/-- **Cached answers are sound.**  A call that does not ask the upstream servers sends
a reply of its own, or an earlier response to a request with the same key that was
stored less than its lifetime ago.  A call that copies a cached value sends such a
response, and if that was stored longer ago, it has asked in vain. -/
theorem cached_answers_sound (cfg : RouteConfig) (clock : ℤ) (calls : List RouteCall)
    (s s' : RouteState) (call : RouteCall)
    (hrun : run (routeStep cfg) (routeStart clock) calls = some s)
    (hstep : routeStep cfg s call = some s') :
    let routed := route cfg s.cache call.req call.seen
    (routed.asked = none → OwnReply cfg call routed.reply ∨
        ∃ e ∈ s.history, AnswersWith cfg call e routed.reply ∧ e.time ≤ call.seen.now ∧
          call.seen.now - e.time < getMinTTL e.response) ∧
      ∀ v, routed.copied = some v → ∃ e ∈ s.history, v = e.cacheVal ∧
        AnswersWith cfg call e routed.reply ∧
          (getMinTTL e.response ≤ call.seen.now - e.time →
            routed.asked ≠ none ∧ ∃ err, call.seen.upstream = .error err) := by
  intro routed
  have hrec := recorded_run hrun
  obtain ⟨hclock, -, -⟩ := routeStep_eq_some hstep
  have hroute : Routing cfg s.cache call.req call.seen routed := routing_route ..
  clear_value routed
  cases hroute with
  | refused hkey => exact ⟨fun _ => Or.inl (Or.inl ⟨_, hkey, rfl⟩), fun v hv => absurd hv (by simp)⟩
  | special hm =>
      exact ⟨fun _ => Or.inl (Or.inr (Or.inl ⟨_, hm, rfl⟩)), fun v hv => absurd hv (by simp)⟩
  | slipped hslip =>
      exact ⟨fun _ => Or.inl (Or.inr (Or.inr ⟨hslip, rfl⟩)), fun v hv => absurd hv (by simp)⟩
  | resolved => exact ⟨fun h => absurd h (by simp), fun v hv => absurd hv (by simp)⟩
  | failed => exact ⟨fun h => absurd h (by simp), fun v hv => absurd hv (by simp)⟩
  | @fresh key v hkey hv hnow =>
      obtain ⟨e, he, hkey', rfl, htime⟩ := hrec key v hv
      have hnow' : call.seen.now < e.time + getMinTTL e.response := hnow
      have hlife : call.seen.now - e.time < getMinTTL e.response := by omega
      refine ⟨fun _ => Or.inr ⟨e, he, ⟨⟨key, hkey, hkey'⟩, rfl⟩, htime.trans hclock, hlife⟩, ?_⟩
      rintro v ⟨⟩
      exact ⟨e, he, rfl, ⟨⟨key, hkey, hkey'⟩, rfl⟩, fun hold => absurd hlife (by omega)⟩
  | @stale key v err hkey hv hnow hup =>
      obtain ⟨e, he, hkey', rfl, -⟩ := hrec key v hv
      refine ⟨fun h => absurd h (by simp), ?_⟩
      rintro v ⟨⟩
      exact ⟨e, he, rfl, ⟨⟨key, hkey, hkey'⟩, rfl⟩, fun _ => ⟨by simp, err, hup⟩⟩

/-! ## Two calls -/

/-- A library for the calls below: ASCII names of two labels, and short messages. -/
def plainLib : DnsLib where
  toLower s := String.ofList (s.toList.map Char.toLower)
  countLabel _ := 2
  optDo rr := rr.hdr.ttl.toNat.testBit 15
  optUDPSize rr := rr.hdr.rrclass
  isEdns0 m := m.extra.reverse.find? fun rr => rr.hdr.rrtype == typeOPT
  setRcode r rcode :=
    { emptyMsg with
      hdr := { emptyHdr with id := r.hdr.id, response := true, rcode := rcode }
      question := r.question.take 1 }
  setEdns0 m size dnssec :=
    { m with extra := m.extra ++
        [⟨⟨".", typeOPT, size, if dnssec then 32768 else 0⟩, .other []⟩] }
  packLen _ := 100

/-- The default flags, and no local records. -/
def plainConfig : RouteConfig := ⟨plainLib, 2, []⟩

/-- A query. -/
def query (id : UInt16) (name : String) (qtype : UInt16) : Msg :=
  { emptyMsg with
    hdr := { emptyHdr with id := id, recursionDesired := true }
    question := [⟨name, qtype, classINET⟩] }

/-- What a call sees at a given time when the cache keeps everything and upstream
answers with the given message. -/
def seenAt (now : ℤ) (upstream : Except String Msg) : Seen := ⟨true, now, 0, false, upstream, now⟩

/-- The response to a query, good for five minutes. -/
def fiveMinutes : Msg :=
  { query 7 "Example.org." 1 with answer := [⟨⟨"Example.org.", 1, 1, 300⟩, .other [192, 0, 2, 1]⟩] }

/-- The state after a first call that is resolved. -/
def afterFirst : RouteState :=
  ⟨(∅ : Map CacheKey CacheVal).insert ⟨"example.org.", 1, false⟩
      ⟨300000000000, resolvedMsg fiveMinutes⟩,
    [⟨query 7 "Example.org." 1, fiveMinutes, 0⟩], 0⟩

/-- A second call in another spelling is answered from the cache four minutes
later. -/
theorem cached_answers_sound_second :
    let call : RouteCall := ⟨query 8 "example.ORG." 1, seenAt 240000000000 (.error "Evicted")⟩
    let routed := route plainConfig afterFirst.cache call.req call.seen
    routed.asked = none ∧ routed.reply = .write (copyFor call.req (resolvedMsg fiveMinutes)) ∧
      (OwnReply plainConfig call routed.reply ∨
        ∃ e ∈ afterFirst.history, AnswersWith plainConfig call e routed.reply ∧
          e.time ≤ call.seen.now ∧ call.seen.now - e.time < getMinTTL e.response) := by
  have hrun : run (routeStep plainConfig) (routeStart 0)
      [⟨query 7 "Example.org." 1, seenAt 0 (.ok fiveMinutes)⟩] = some afterFirst := by
    decide +kernel
  refine ⟨by decide +kernel, by decide +kernel, ?_⟩
  refine (cached_answers_sound plainConfig 0 _ afterFirst
    ⟨afterFirst.cache, afterFirst.history, 240000000000⟩ _ hrun (by decide +kernel)).1 ?_
  decide +kernel

/-- **An answer that is no response.**  The first call there is, for `ANY`, is answered
by `route` itself: nothing was asked, and there is no exchange at all. -/
theorem any_answered_itself :
    let call : RouteCall := ⟨query 7 "Example.org." typeANY, seenAt 0 (.error "Evicted")⟩
    let routed := route plainConfig (routeStart 0).cache call.req call.seen
    routed.asked = none ∧
      routed.reply = .write (anyReply call.req ⟨"Example.org.", typeANY, classINET⟩) ∧
      ¬ ∃ e ∈ (routeStart 0).history, AnswersWith plainConfig call e routed.reply := by
  refine ⟨by decide +kernel, by decide +kernel, ?_⟩
  rintro ⟨e, he, -⟩
  exact absurd he (by simp [routeStart])

end Jojo
