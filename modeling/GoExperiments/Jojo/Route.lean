import Mathlib.Data.Int.Notation
import GoExperiments.Lib.GoBasic
import GoExperiments.Lib.GoMap
import GoExperiments.Jojo.Slip

/-!
# Answering a query

The model of `route` of `jojo/jojo.go` and of the functions it calls.  A call is a
function of the cache and of what it sees of the world on its way: the clock, the
counter `slip`, the answer of the upstream servers.  Its result says what is sent
and what is done to the shared state.

The functions of the DNS library and of Go that the repository does not contain are
the parameters collected in `DnsLib`.

* `getKey`, `getMaxPayloadSize`, `getMinTTL`, `sendTruncated`, `handleSpecialNames`,
  `route` — the functions.
* `Routing`, `routing_route` — the seven ways a call can take, each with what it
  sends and what it does.
-/

namespace Jojo

open GoMap Go

/-! ## Messages -/

/-- `dns.RR_Header`. -/
structure RRHeader where
  name : String
  rrtype : UInt16
  rrclass : UInt16
  ttl : UInt32
  deriving DecidableEq

/-- What a record says, besides its header. -/
inductive RData where
  | hinfo (cpu os : String)
  | other (wire : List UInt8)
  deriving DecidableEq

/-- `dns.RR`. -/
structure RR where
  hdr : RRHeader
  rdata : RData
  deriving DecidableEq

/-- `dns.Question`. -/
structure Question where
  name : String
  qtype : UInt16
  qclass : UInt16
  deriving DecidableEq

/-- `dns.MsgHdr`. -/
structure MsgHdr where
  id : UInt16
  response : Bool
  opcode : ℤ
  authoritative : Bool
  truncated : Bool
  recursionDesired : Bool
  recursionAvailable : Bool
  zero : Bool
  authenticatedData : Bool
  checkingDisabled : Bool
  rcode : ℤ
  deriving DecidableEq

/-- `dns.Msg`. -/
structure Msg where
  hdr : MsgHdr
  compress : Bool
  question : List Question
  answer : List RR
  ns : List RR
  extra : List RR
  deriving DecidableEq

/-- The header of `new(dns.Msg)`. -/
def emptyHdr : MsgHdr := ⟨0, false, 0, false, false, false, false, false, false, false, 0⟩

/-- `new(dns.Msg)`. -/
def emptyMsg : Msg := ⟨emptyHdr, false, [], [], [], []⟩

def typeHINFO : UInt16 := 13
def typeOPT : UInt16 := 41
def typeANY : UInt16 := 255
def classINET : UInt16 := 1
def rcodeServerFailure : ℤ := 2
def rcodeRefused : ℤ := 5
def minMsgSize : UInt16 := 512
def defaultMsgSize : UInt16 := 4096

/-- `CacheKey`. -/
structure CacheKey where
  name : String
  qtype : UInt16
  dnssec : Bool
  deriving DecidableEq

/-- `CacheVal`; times are in nanoseconds. -/
structure CacheVal where
  validUntil : ℤ
  response : Msg
  deriving DecidableEq

/-- `LocalRR`. -/
structure LocalRR where
  name : String
  rr : RR
  deriving DecidableEq

/-- What `route` uses of Go's library and of the DNS library. -/
structure DnsLib where
  /-- `strings.ToLower`. -/
  toLower : String → String
  /-- `dns.CountLabel`. -/
  countLabel : String → ℤ
  /-- `(*dns.OPT).Do`. -/
  optDo : RR → Bool
  /-- `(*dns.OPT).UDPSize`. -/
  optUDPSize : RR → UInt16
  /-- `(*dns.Msg).IsEdns0`. -/
  isEdns0 : Msg → Option RR
  /-- `(*dns.Msg).SetRcode` on a new message: a reply to the message given. -/
  setRcode : Msg → ℤ → Msg
  /-- `(*dns.Msg).SetEdns0`. -/
  setEdns0 : Msg → UInt16 → Bool → Msg
  /-- The length of what `(*dns.Msg).Pack` returns. -/
  packLen : Msg → ℕ

/-- The library, the flag `minlabels` and the local records. -/
structure RouteConfig where
  lib : DnsLib
  minLabelsCount : ℤ
  localRRS : List LocalRR

/-! ## The functions -/

/-- The flag of the last OPT record decides. -/
def wantsDnssec (lib : DnsLib) (extra : List RR) : Bool :=
  extra.foldl (fun dnssec rr => if rr.hdr.rrtype = typeOPT then lib.optDo rr else dnssec) false

/-- `getKey`. -/
def getKey (cfg : RouteConfig) (req : Msg) : Except String CacheKey :=
  match req.question with
  | [question] =>
      if question.qclass ≠ classINET then .error "Unsupported question class"
      else if cfg.lib.countLabel question.name < cfg.minLabelsCount then
        .error "Not enough labels"
      else .ok ⟨cfg.lib.toLower question.name, question.qtype, wantsDnssec cfg.lib req.extra⟩
  | _ => .error "Invalid number of questions"

/-- `getMaxPayloadSize`. -/
def getMaxPayloadSize (lib : DnsLib) (req : Msg) : UInt16 :=
  match lib.isEdns0 req with
  | none => minMsgSize
  | some opt => if lib.optUDPSize opt < minMsgSize then minMsgSize else lib.optUDPSize opt

def negCacheMinTTL : ℤ := 600
def minTTL : UInt32 := 60
def maxTTL : UInt32 := 604800

/-- The loop of `getMinTTL`. -/
def leastTTL (answer : List RR) : UInt32 :=
  answer.foldl (fun ttl rr => if rr.hdr.ttl < ttl then rr.hdr.ttl else ttl) maxTTL

/-- `getMinTTL`, in nanoseconds. -/
def getMinTTL (resp : Msg) : ℤ :=
  if resp.answer.length ≤ 0 then negCacheMinTTL * second
  else
    let ttl := leastTTL resp.answer
    ((if ttl < minTTL then minTTL else ttl).toNat : ℤ) * second

/-- What is done to the connection: one message is written, or it is closed. -/
inductive Reply where
  | write (m : Msg)
  | close
  deriving DecidableEq

/-- `sendTruncated`; `tcp` says that the client is connected over TCP. -/
def sendTruncated (lib : DnsLib) (tcp : Bool) (msgHdr : MsgHdr) : Reply :=
  let emptyResp : Msg := { emptyMsg with hdr := { msgHdr with response := true } }
  if tcp then .write (lib.setRcode emptyResp rcodeServerFailure)
  else .write { emptyResp with hdr := { emptyResp.hdr with truncated := true } }

/-- The reply to a query for a name with a local record. -/
def localReply (req : Msg) (rr : RR) : Msg :=
  { emptyMsg with hdr := { emptyHdr with id := req.hdr.id, response := true }, answer := [rr] }

/-- The reply to an `ANY` query. -/
def anyReply (req : Msg) (question : Question) : Msg :=
  localReply req ⟨⟨question.name, typeHINFO, classINET, 86400⟩,
    .hinfo "ANY is not supported any more" "See draft-jabley-dnsop-refuse-any"⟩

/-- `handleSpecialNames`, for a request with a question: the message it writes, if it
returns true. -/
def handleSpecialNames (cfg : RouteConfig) (req : Msg) : Option Msg :=
  match req.question with
  | [] => none
  | question :: _ =>
      match cfg.localRRS.find? fun localRR => cfg.lib.toLower question.name == localRR.name with
      | some localRR => some (localReply req localRR.rr)
      | none => if question.qtype ≠ typeANY then none else some (anyReply req question)

/-- The request `resolve` hands to `resolveViaResolverThreads`. -/
def resolveRequest (lib : DnsLib) (req : Msg) (dnssec : Bool) : Msg :=
  lib.setEdns0 { req with extra := req.extra.filter fun rr => decide (rr.hdr.rrtype ≠ typeOPT) }
    defaultMsgSize dnssec

/-- What `resolve` returns for a response. -/
def resolvedMsg (resolved : Msg) : Msg := { resolved with compress := true }

/-- The copy of a cached response that is sent to the client. -/
def copyFor (req : Msg) (response : Msg) : Msg :=
  { response with hdr := { response.hdr with id := req.hdr.id }, question := req.question }

/-- The end of `route`. -/
def finalSend (lib : DnsLib) (tcp : Bool) (maxPayloadSize : UInt16) (resp : Msg) : Reply :=
  if UInt16.ofNat (lib.packLen resp) > maxPayloadSize then sendTruncated lib tcp resp.hdr
  else .write resp

/-- What a call sees on its way. -/
structure Seen where
  /-- The cache has kept the last value added under the call's key. -/
  kept : Bool
  /-- The clock when the cached value is looked at. -/
  now : ℤ
  /-- What is loaded from `slip`. -/
  slipValue : UInt32
  tcp : Bool
  /-- What `resolveViaResolverThreads` returns. -/
  upstream : Except String Msg
  /-- The clock when a response is stored. -/
  later : ℤ

/-- What a call does: the reply, the value it tries to swap `slip` from, the request
it asks the resolver threads for, the cached value it copies, and what it stores. -/
structure Routed where
  reply : Reply
  swap : Option UInt32
  asked : Option Msg
  copied : Option CacheVal
  stored : Option (CacheKey × CacheVal)

/-- The reply of the slip branch. -/
def slipReply (cfg : RouteConfig) (req : Msg) (seen : Seen) : Reply :=
  if slipTruncates seen.slipValue then sendTruncated cfg.lib seen.tcp req.hdr else .close

/-- The final send, for a given request. -/
def sendFor (cfg : RouteConfig) (req : Msg) (seen : Seen) (resp : Msg) : Reply :=
  finalSend cfg.lib seen.tcp (getMaxPayloadSize cfg.lib req) resp

/-- `route` after the cache was asked, with what it has returned. -/
def routeCached (cfg : RouteConfig) (req : Msg) (seen : Seen) (key : CacheKey)
    (cacheVal : Option CacheVal) : Routed :=
  let send := sendFor cfg req seen
  let asked := some (resolveRequest cfg.lib req key.dnssec)
  match cacheVal.filter fun v => decide (seen.now < v.validUntil) with
  | some v => ⟨send (copyFor req v.response), none, none, some v, none⟩
  | none =>
      if slips seen.slipValue then
        ⟨slipReply cfg req seen, some seen.slipValue, none, none, none⟩
      else match seen.upstream with
        | .ok resolved =>
            let resp := resolvedMsg resolved
            ⟨send resp, none, asked, none, some (key, ⟨seen.later + getMinTTL resp, resp⟩)⟩
        | .error _ => match cacheVal with
            | none => ⟨.close, none, asked, none, none⟩
            | some v => ⟨send (copyFor req v.response), none, asked, some v, none⟩

/-- `route`. -/
def route (cfg : RouteConfig) (cache : Map CacheKey CacheVal) (req : Msg) (seen : Seen) : Routed :=
  match getKey cfg req with
  | .error _ => ⟨.write (cfg.lib.setRcode req rcodeRefused), none, none, none, none⟩
  | .ok key => match handleSpecialNames cfg req with
      | some m => ⟨.write m, none, none, none, none⟩
      | none => routeCached cfg req seen key (if seen.kept then cache.lookup key else none)

/-! ## The ways a call can take -/

/-- The ways a call can take. -/
inductive Routing (cfg : RouteConfig) (cache : Map CacheKey CacheVal) (req : Msg) (seen : Seen) :
    Routed → Prop
  /-- The question is not one that is answered. -/
  | refused {err : String} (hkey : getKey cfg req = .error err) :
      Routing cfg cache req seen
        ⟨.write (cfg.lib.setRcode req rcodeRefused), none, none, none, none⟩
  /-- There is a local record for the name, or the query is for `ANY`. -/
  | special {m : Msg} (h : handleSpecialNames cfg req = some m) :
      Routing cfg cache req seen ⟨.write m, none, none, none, none⟩
  /-- The cache has a response that is still valid. -/
  | fresh {key : CacheKey} {v : CacheVal} (hkey : getKey cfg req = .ok key)
      (hv : cache.lookup key = some v) (hnow : seen.now < v.validUntil) :
      Routing cfg cache req seen
        ⟨sendFor cfg req seen (copyFor req v.response), none, none, some v, none⟩
  /-- The request is shed. -/
  | slipped (h : slips seen.slipValue = true) :
      Routing cfg cache req seen ⟨slipReply cfg req seen, some seen.slipValue, none, none, none⟩
  /-- The request is resolved. -/
  | resolved {key : CacheKey} {m : Msg} (hkey : getKey cfg req = .ok key)
      (hup : seen.upstream = .ok m) :
      Routing cfg cache req seen
        ⟨sendFor cfg req seen (resolvedMsg m), none, some (resolveRequest cfg.lib req key.dnssec),
          none, some (key, ⟨seen.later + getMinTTL (resolvedMsg m), resolvedMsg m⟩)⟩
  /-- The request cannot be resolved, and there is nothing else to send. -/
  | failed {key : CacheKey} {err : String} (hkey : getKey cfg req = .ok key)
      (hup : seen.upstream = .error err) :
      Routing cfg cache req seen
        ⟨.close, none, some (resolveRequest cfg.lib req key.dnssec), none, none⟩
  /-- The request cannot be resolved, and an old response is sent. -/
  | stale {key : CacheKey} {v : CacheVal} {err : String} (hkey : getKey cfg req = .ok key)
      (hv : cache.lookup key = some v) (hnow : v.validUntil ≤ seen.now)
      (hup : seen.upstream = .error err) :
      Routing cfg cache req seen
        ⟨sendFor cfg req seen (copyFor req v.response), none,
          some (resolveRequest cfg.lib req key.dnssec), some v, none⟩

theorem lookup_of_kept {cache : Map CacheKey CacheVal} {key : CacheKey} {kept : Bool} {v : CacheVal}
    (h : (if kept then cache.lookup key else none) = some v) : cache.lookup key = some v := by
  cases kept with
  | true => exact h
  | false => exact absurd h (by simp)

theorem routing_routeCached {cfg : RouteConfig} {cache : Map CacheKey CacheVal} {req : Msg}
    {seen : Seen} {key : CacheKey} {cacheVal : Option CacheVal} (hkey : getKey cfg req = .ok key)
    (hcache : ∀ v, cacheVal = some v → cache.lookup key = some v) :
    Routing cfg cache req seen (routeCached cfg req seen key cacheVal) := by
  unfold routeCached
  split
  · rename_i v hfresh
    obtain ⟨hv, hnow⟩ := Option.filter_eq_some_iff.1 hfresh
    exact .fresh hkey (hcache v hv) (by simpa using hnow)
  · rename_i hold
    split
    · rename_i hslip
      exact .slipped hslip
    · split
      · rename_i m hup
        exact .resolved hkey hup
      · rename_i err hup
        cases cacheVal with
        | none => exact .failed hkey hup
        | some v =>
            have hnow : v.validUntil ≤ seen.now := by simpa using hold
            exact .stale hkey (hcache v rfl) hnow hup

/-- **The ways a call can take** are the only ones. -/
theorem routing_route (cfg : RouteConfig) (cache : Map CacheKey CacheVal) (req : Msg)
    (seen : Seen) : Routing cfg cache req seen (route cfg cache req seen) := by
  unfold route
  split
  · rename_i err hkey
    exact .refused hkey
  · rename_i key hkey
    split
    · rename_i m hm
      exact .special hm
    · exact routing_routeCached hkey fun v hv => lookup_of_kept hv

end Jojo
