import GoExperiments.Jojo.DnsCache

/-!
# How large a response may be

`route` ends by comparing the length of the packed response with the client's limit.  The
rule it is for: over UDP a response within the limit is sent whole and any other is
replaced by an empty reply with the truncated bit; over TCP there is no such limit.

* `Answers` — the responses `route` comes to its end with: a cached one that is valid, one
  just resolved, or an old one when nothing can be resolved.  `reply_of_answers` says that
  these go to the final send.
* `finalSend_eq` — the final send compares the length *modulo* `2 ^ 16`, and it compares it
  over TCP too.
* `size_rule_iff` — the lengths for which the rule is kept.
-/

namespace Jojo

open GoMap

/-! ## The responses that are sent -/

/-- The responses `route` comes to its final send with. -/
inductive Answers (cfg : RouteConfig) (cache : Map CacheKey CacheVal) (req : Msg) (seen : Seen) :
    Msg → Prop
  | fresh {key : CacheKey} {v : CacheVal} (hkey : getKey cfg req = .ok key)
      (hspecial : handleSpecialNames cfg req = none) (hkept : seen.kept = true)
      (hv : cache.lookup key = some v) (hnow : seen.now < v.validUntil) :
      Answers cfg cache req seen (copyFor req v.response)
  | resolved {key : CacheKey} {m : Msg} (hkey : getKey cfg req = .ok key)
      (hspecial : handleSpecialNames cfg req = none)
      (hold : ∀ v, seen.kept = true → cache.lookup key = some v → v.validUntil ≤ seen.now)
      (hslip : slips seen.slipValue = false) (hup : seen.upstream = .ok m) :
      Answers cfg cache req seen (resolvedMsg m)
  | stale {key : CacheKey} {v : CacheVal} {err : String} (hkey : getKey cfg req = .ok key)
      (hspecial : handleSpecialNames cfg req = none) (hkept : seen.kept = true)
      (hv : cache.lookup key = some v) (hnow : v.validUntil ≤ seen.now)
      (hslip : slips seen.slipValue = false) (hup : seen.upstream = .error err) :
      Answers cfg cache req seen (copyFor req v.response)

/-- What `route` looks at in the cache, when nothing in it is valid. -/
theorem filter_valid_eq_none {cacheVal : Option CacheVal} {now : ℤ}
    (h : ∀ v, cacheVal = some v → v.validUntil ≤ now) :
    (cacheVal.filter fun v => decide (now < v.validUntil)) = none := by
  cases cacheVal with
  | none => rfl
  | some v =>
      have hnot : ¬ now < v.validUntil := not_lt.2 (h v rfl)
      simp [Option.filter, hnot]

/-- They are what is sent. -/
theorem reply_of_answers {cfg : RouteConfig} {cache : Map CacheKey CacheVal} {req : Msg}
    {seen : Seen} {resp : Msg} (h : Answers cfg cache req seen resp) :
    (route cfg cache req seen).reply = sendFor cfg req seen resp := by
  cases h with
  | @fresh key v hkey hspecial hkept hv hnow =>
      have hvalid : ((some v).filter fun v => decide (seen.now < v.validUntil)) = some v := by
        simp [Option.filter, hnow]
      simp only [route, hkey, hspecial, hkept, if_true, hv, routeCached, hvalid]
  | @resolved key m hkey hspecial hold hslip hup =>
      have hnone := @filter_valid_eq_none (if seen.kept then cache.lookup key else none) seen.now
        fun v hv => by
          cases hkept : seen.kept with
          | true => rw [hkept] at hv; exact hold v hkept hv
          | false => rw [hkept] at hv; cases hv
      simp only [route, hkey, hspecial, routeCached, hnone, hslip, Bool.false_eq_true, if_false,
        hup]
  | @stale key v err hkey hspecial hkept hv hnow hslip hup =>
      have hnone := @filter_valid_eq_none (some v) seen.now fun v' hv' => by cases hv'; exact hnow
      simp only [route, hkey, hspecial, hkept, if_true, hv, routeCached, hnone, hslip,
        Bool.false_eq_true, if_false, hup]

/-! ## The limit and the replies -/

/-- The longest reply a client takes over UDP: 512 bytes, or the size of its EDNS0 record when
that is larger. -/
def clientLimit (lib : DnsLib) (req : Msg) : ℕ :=
  match lib.isEdns0 req with
  | none => 512
  | some opt => max 512 (lib.optUDPSize opt).toNat

theorem toNat_getMaxPayloadSize (lib : DnsLib) (req : Msg) :
    (getMaxPayloadSize lib req).toNat = clientLimit lib req := by
  unfold getMaxPayloadSize clientLimit
  cases lib.isEdns0 req with
  | none => rfl
  | some opt =>
      have hmin : minMsgSize.toNat = 512 := rfl
      simp only [UInt16.lt_iff_toNat_lt, hmin]
      split
      · rename_i hlt
        exact (max_eq_left (le_of_lt hlt)).symm
      · rename_i hge
        exact (max_eq_right (not_lt.1 hge)).symm

theorem clientLimit_lt (lib : DnsLib) (req : Msg) : clientLimit lib req < 65536 := by
  rw [← toNat_getMaxPayloadSize]
  exact (getMaxPayloadSize lib req).toNat_lt

/-- The empty reply with the truncated bit. -/
def truncatedReply (msgHdr : MsgHdr) : Msg :=
  { emptyMsg with hdr := { msgHdr with response := true, truncated := true } }

/-- The reply of `dns.HandleFailed`. -/
def failureReply (lib : DnsLib) (msgHdr : MsgHdr) : Msg :=
  lib.setRcode { emptyMsg with hdr := { msgHdr with response := true } } rcodeServerFailure

theorem sendTruncated_eq (lib : DnsLib) (tcp : Bool) (msgHdr : MsgHdr) :
    sendTruncated lib tcp msgHdr =
      .write (if tcp then failureReply lib msgHdr else truncatedReply msgHdr) := by
  cases tcp <;> rfl

/-- The final send, on the length of the packed response. -/
theorem finalSend_eq (lib : DnsLib) (tcp : Bool) (req resp : Msg) :
    finalSend lib tcp (getMaxPayloadSize lib req) resp =
      if lib.packLen resp % 65536 ≤ clientLimit lib req then .write resp
      else .write (if tcp then failureReply lib resp.hdr else truncatedReply resp.hdr) := by
  have hcmp : UInt16.ofNat (lib.packLen resp) > getMaxPayloadSize lib req ↔
      ¬ lib.packLen resp % 65536 ≤ clientLimit lib req := by
    rw [gt_iff_lt, UInt16.lt_iff_toNat_lt, toNat_getMaxPayloadSize, UInt16.toNat_ofNat', not_le]
  unfold finalSend
  rw [sendTruncated_eq]
  by_cases hfits : lib.packLen resp % 65536 ≤ clientLimit lib req
  · rw [if_neg (fun h => hcmp.1 h hfits), if_pos hfits]
  · rw [if_pos (hcmp.2 hfits), if_neg hfits]

/-! ## The rule -/

/-- The rule for a reply to a request.  Over UDP the response is sent whole when it is within
the limit, and the truncated reply is sent in its place when it is not.  Over TCP every
response that fits a message is sent whole, and no response is replaced by a failure. -/
def SizeRule (lib : DnsLib) (req : Msg) (tcp : Bool) (resp : Msg) (reply : Reply) : Prop :=
  if tcp then
    (lib.packLen resp ≤ 65535 → reply = .write resp) ∧
      (reply = .write (failureReply lib resp.hdr) → reply = .write resp)
  else if lib.packLen resp ≤ clientLimit lib req then reply = .write resp
  else reply = .write (truncatedReply resp.hdr)

/-- **The size rule.**  For a response that packs to `n` bytes it is kept over UDP exactly when
`n` is within the limit, or `n` modulo `2 ^ 16` is not, or the response is itself the truncated
reply; and over TCP exactly when `n` modulo `2 ^ 16` is within the UDP limit, or the response is
itself the failure. -/
theorem size_rule_iff (cfg : RouteConfig) (cache : Map CacheKey CacheVal) (req : Msg) (seen : Seen)
    (resp : Msg) (h : Answers cfg cache req seen resp) :
    SizeRule cfg.lib req seen.tcp resp (route cfg cache req seen).reply ↔
      (seen.tcp = false ∧ (cfg.lib.packLen resp ≤ clientLimit cfg.lib req ∨
          clientLimit cfg.lib req < cfg.lib.packLen resp % 65536 ∨
          truncatedReply resp.hdr = resp)) ∨
        (seen.tcp = true ∧ (cfg.lib.packLen resp % 65536 ≤ clientLimit cfg.lib req ∨
          failureReply cfg.lib resp.hdr = resp)) := by
  have hlimit := clientLimit_lt cfg.lib req
  rw [reply_of_answers h, sendFor, finalSend_eq, SizeRule]
  generalize cfg.lib.packLen resp = n at *
  generalize clientLimit cfg.lib req = limit at *
  cases seen.tcp with
  | false =>
      by_cases hle : n ≤ limit
      · -- within the limit, and so below `2 ^ 16`
        have hmod : n % 65536 ≤ limit := le_trans (Nat.mod_le n 65536) hle
        simp [hle, hmod]
      · by_cases hmod : n % 65536 ≤ limit
        · simp [hle, hmod, not_lt.2 hmod, eq_comm]
        · simp [hle, hmod, not_le.1 hmod]
  | true =>
      by_cases hmod : n % 65536 ≤ limit
      · simp [hmod]
      · -- the failure is sent, whatever fits a message
        simp only [hmod, if_true, if_false]
        constructor
        · intro hrule
          exact Or.inr ⟨trivial, Or.inr (Reply.write.inj (hrule.2 trivial))⟩
        · rintro (⟨htcp, -⟩ | ⟨-, hfalse | hsame⟩)
          · cases htcp
          · exact hfalse.elim
          · rw [hsame]
            exact ⟨fun _ => rfl, fun _ => rfl⟩

/-! ### A response past the limit -/

/-- The library, with packed responses of a given length. -/
def packingLib (n : ℕ) : DnsLib := { plainLib with packLen := fun _ => n }

/-- A request that upstream answers. -/
def seenFrom (tcp : Bool) : Seen := { seenAt 0 (.ok fiveMinutes) with tcp := tcp }

theorem answers_fiveMinutes :
    Answers ⟨packingLib 400, 2, []⟩ ∅ (query 7 "Example.org." 1) (seenFrom false)
      (resolvedMsg fiveMinutes) := by
  refine @Answers.resolved _ _ _ _ ⟨"example.org.", 1, false⟩ _ ?_ ?_ (fun v _ hv => ?_) ?_ rfl
  · decide +kernel
  · decide +kernel
  · exact absurd hv (by simp)
  · decide

/-- A response of 400 bytes keeps the rule over UDP. -/
theorem size_rule_small :
    SizeRule (packingLib 400) (query 7 "Example.org." 1) false (resolvedMsg fiveMinutes)
      (route ⟨packingLib 400, 2, []⟩ ∅ (query 7 "Example.org." 1) (seenFrom false)).reply :=
  (size_rule_iff ⟨packingLib 400, 2, []⟩ ∅ (query 7 "Example.org." 1) (seenFrom false)
    (resolvedMsg fiveMinutes) answers_fiveMinutes).2
    (Or.inl ⟨rfl, Or.inl (by decide)⟩)

/-- Over TCP a response of 600 bytes is replaced by a failure reply, and over UDP one of
`2 ^ 16` bytes is sent whole. -/
theorem size_rule_broken :
    (route ⟨packingLib 600, 2, []⟩ ∅ (query 7 "Example.org." 1) (seenFrom true)).reply =
        .write (failureReply (packingLib 600) (resolvedMsg fiveMinutes).hdr) ∧
      ¬ SizeRule (packingLib 600) (query 7 "Example.org." 1) true (resolvedMsg fiveMinutes)
        (route ⟨packingLib 600, 2, []⟩ ∅ (query 7 "Example.org." 1) (seenFrom true)).reply ∧
      (route ⟨packingLib 65536, 2, []⟩ ∅ (query 7 "Example.org." 1) (seenFrom false)).reply =
        .write (resolvedMsg fiveMinutes) ∧
      ¬ SizeRule (packingLib 65536) (query 7 "Example.org." 1) false (resolvedMsg fiveMinutes)
        (route ⟨packingLib 65536, 2, []⟩ ∅ (query 7 "Example.org." 1) (seenFrom false)).reply := by
  have htcp : (route ⟨packingLib 600, 2, []⟩ ∅ (query 7 "Example.org." 1) (seenFrom true)).reply =
      .write (failureReply (packingLib 600) (resolvedMsg fiveMinutes).hdr) := by decide +kernel
  have hudp : (route ⟨packingLib 65536, 2, []⟩ ∅ (query 7 "Example.org." 1)
      (seenFrom false)).reply = .write (resolvedMsg fiveMinutes) := by decide +kernel
  refine ⟨htcp, ?_, hudp, ?_⟩
  · rintro ⟨hwhole, -⟩
    rw [htcp] at hwhole
    exact absurd (hwhole (by decide)) (by decide +kernel)
  · rw [hudp]
    unfold SizeRule
    rw [if_neg (by decide), if_neg (by decide +kernel)]
    decide +kernel

end Jojo
