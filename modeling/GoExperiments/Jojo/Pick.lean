import Mathlib.Data.Set.Card
import Mathlib.Order.Interval.Finset.Nat
import GoExperiments.Lib.GoSlice
import GoExperiments.Jojo.Route
import GoExperiments.Jojo.Upstream

/-!
# Choosing an upstream server

`pickUpstream` of `jojo/jojo.go` hashes the name that is asked for to 64 bits and divides the
hash by `MaxUint64 / liveCount`.  What the division leaves over at the top goes to the last
server.

* `upstreamIndex`, `pickUpstream` — the source, with the panics that Go would raise.
* `bucket` — the index without the panics; `upstreamIndex_eq` says that there are none.
* `bucket_eq_iff`, `bucket_eq_last_iff` — the hashes of one index are an interval.
* `pick_balanced` — the choice is in range, monotone and balanced, for every number of servers.
-/

namespace Jojo

open GoSlice

/-! ## The source -/

/-- `math.MaxUint64`. -/
def maxUint64 : UInt64 := 0xFFFFFFFFFFFFFFFF

/-- The division of `uint64`s. -/
def divUint64 (a b : UInt64) : Except Fault UInt64 :=
  if b = 0 then .error (.panic "runtime error: integer divide by zero") else .ok (a / b)

/-- The index that `pickUpstream` computes. -/
def upstreamIndex (h liveCount : UInt64) : Except Fault UInt64 := do
  let i ← divUint64 h (← divUint64 maxUint64 liveCount)
  return if i ≥ liveCount then liveCount - 1 else i

/-- The hash of the name that is asked for; `hash` is `siphash.Hash` with the key of the
process. -/
def nameHash (lib : DnsLib) (hash : List UInt8 → UInt64) (question : Question) : UInt64 :=
  hash (lib.toLower question.name).toUTF8.toList

/-- `pickUpstream`. -/
def pickUpstream (lib : DnsLib) (hash : List UInt8 → UInt64) (t : UpstreamServers) (req : Msg) :
    Except Fault String :=
  match req.question with
  | [] => .error Slice.indexOutOfRange
  | question :: _ => do
      let h := nameHash lib hash question
      let liveCount := UInt64.ofNat t.live.length
      if liveCount ≤ 0 then .error (.err "All upstream servers are down")
      else
        let i ← upstreamIndex h liveCount
        match t.live[i.toNat]? with
        | none => .error Slice.indexOutOfRange
        | some res => .ok res

/-! ## The index -/

/-- The index for a hash, with `n` servers. -/
def bucket (n h : UInt64) : UInt64 := if h / (maxUint64 / n) ≥ n then n - 1 else h / (maxUint64 / n)

/-- How many hashes each server gets, the last one apart. -/
def width (n : UInt64) : ℕ := (2 ^ 64 - 1) / n.toNat

theorem toNat_pos_of_ne_zero {n : UInt64} (hn : n ≠ 0) : 0 < n.toNat := by
  rw [Nat.pos_iff_ne_zero]
  intro h
  exact hn (UInt64.toNat_inj.1 h)

theorem toNat_maxUint64_div (n : UInt64) : (maxUint64 / n).toNat = width n := by
  rw [UInt64.toNat_div]
  rfl

theorem width_pos {n : UInt64} (hn : n ≠ 0) : 0 < width n := by
  have hlt := n.toNat_lt
  exact Nat.div_pos (by omega) (toNat_pos_of_ne_zero hn)

/-- No division by zero. -/
theorem upstreamIndex_eq {n : UInt64} (hn : n ≠ 0) (h : UInt64) :
    upstreamIndex h n = .ok (bucket n h) := by
  have hdiv : maxUint64 / n ≠ 0 := by
    intro hzero
    have hwidth := toNat_maxUint64_div n
    rw [hzero] at hwidth
    exact absurd hwidth.symm (width_pos hn).ne'
  simp only [upstreamIndex, divUint64, if_neg hn, bind, Except.bind, if_neg hdiv]
  rfl

theorem toNat_bucket {n : UInt64} (hn : n ≠ 0) (h : UInt64) :
    (bucket n h).toNat = min (h.toNat / width n) (n.toNat - 1) := by
  have hpos := toNat_pos_of_ne_zero hn
  have hone : (1 : UInt64) ≤ n := by
    rw [UInt64.le_iff_toNat_le]
    exact hpos
  have hquot : (h / (maxUint64 / n)).toNat = h.toNat / width n := by
    rw [UInt64.toNat_div, toNat_maxUint64_div]
  unfold bucket
  split
  next hge =>
    rw [ge_iff_le, UInt64.le_iff_toNat_le, hquot] at hge
    rw [UInt64.toNat_sub_of_le _ _ hone, UInt64.toNat_one]
    omega
  next hlt =>
    rw [ge_iff_le, UInt64.le_iff_toNat_le, hquot] at hlt
    rw [hquot]
    omega

theorem bucket_lt {n : UInt64} (hn : n ≠ 0) (h : UInt64) : bucket n h < n := by
  have hpos := toNat_pos_of_ne_zero hn
  rw [UInt64.lt_iff_toNat_lt, toNat_bucket hn]
  omega

theorem bucket_mono {n : UInt64} (hn : n ≠ 0) {h h' : UInt64} (hle : h ≤ h') :
    bucket n h ≤ bucket n h' := by
  rw [UInt64.le_iff_toNat_le] at hle ⊢
  rw [toNat_bucket hn, toNat_bucket hn]
  exact min_le_min_right _ (Nat.div_le_div_right hle)

/-- The hashes of an index that is not the last. -/
theorem bucket_eq_iff {n j : UInt64} (hj : j.toNat + 1 < n.toNat) (h : UInt64) :
    bucket n h = j ↔ j.toNat * width n ≤ h.toNat ∧ h.toNat < (j.toNat + 1) * width n := by
  have hn : n ≠ 0 := by
    rintro rfl
    exact absurd hj (Nat.not_lt_zero _)
  have hmin : min (h.toNat / width n) (n.toNat - 1) = j.toNat ↔ h.toNat / width n = j.toNat := by
    omega
  rw [← UInt64.toNat_inj, toNat_bucket hn, hmin, Nat.div_eq_iff (width_pos hn), Nat.add_mul]
  have hwidth := width_pos hn
  omega

/-- The hashes of the last index. -/
theorem bucket_eq_last_iff {n : UInt64} (hn : n ≠ 0) (h : UInt64) :
    (bucket n h).toNat = n.toNat - 1 ↔ (n.toNat - 1) * width n ≤ h.toNat := by
  rw [toNat_bucket hn, min_eq_right_iff, Nat.le_div_iff_mul_le (width_pos hn)]

/-! ## Counting hashes -/

/-- The number of hashes from `lo` to `hi`. -/
theorem ncard_hashes {lo hi : ℕ} (hhi : hi ≤ 2 ^ 64) :
    {h : UInt64 | lo ≤ h.toNat ∧ h.toNat < hi}.ncard = hi - lo := by
  have himage : Set.image UInt64.toNat {h : UInt64 | lo ≤ h.toNat ∧ h.toNat < hi} =
      (Finset.Ico lo hi : Set ℕ) := by
    ext x
    simp only [Set.mem_image, Set.mem_ofPred_eq, Finset.coe_Ico, Set.mem_Ico]
    constructor
    · rintro ⟨h, hh, rfl⟩
      exact hh
    · intro hx
      have hofNat : (UInt64.ofNat x).toNat = x := UInt64.toNat_ofNat_of_lt' (lt_of_lt_of_le hx.2 hhi)
      exact ⟨UInt64.ofNat x, by rwa [hofNat], hofNat⟩
  have hinj : Function.Injective UInt64.toNat := fun _ _ h => UInt64.toNat_inj.1 h
  rw [← Set.ncard_image_of_injective _ hinj, himage, Set.ncard_coe_finset, Nat.card_Ico]

theorem mul_width_le (n : UInt64) : n.toNat * width n ≤ 2 ^ 64 - 1 := Nat.mul_div_le _ _

theorem ncard_bucket {n j : UInt64} (hj : j.toNat + 1 < n.toNat) :
    {h | bucket n h = j}.ncard = width n := by
  have hle : (j.toNat + 1) * width n ≤ n.toNat * width n := Nat.mul_le_mul_right _ hj.le
  have hmax := mul_width_le n
  simp only [bucket_eq_iff hj]
  rw [ncard_hashes (by omega), Nat.add_mul, Nat.one_mul, Nat.add_sub_cancel_left]

/-- The last server gets the rest. -/
theorem ncard_last {n : UInt64} (hn : n ≠ 0) :
    {h | (bucket n h).toNat = n.toNat - 1}.ncard = 2 ^ 64 - (n.toNat - 1) * width n := by
  have hset : {h | (bucket n h).toNat = n.toNat - 1} =
      {h : UInt64 | (n.toNat - 1) * width n ≤ h.toNat ∧ h.toNat < 2 ^ 64} := by
    ext h
    simp only [Set.mem_ofPred_eq, bucket_eq_last_iff hn, h.toNat_lt, and_true]
  rw [hset, ncard_hashes le_rfl]

theorem rest_le {n : UInt64} (hn : n ≠ 0) :
    2 ^ 64 - (n.toNat - 1) * width n ≤ width n + n.toNat := by
  have hpos := toNat_pos_of_ne_zero hn
  have hdiv : n.toNat * width n + (2 ^ 64 - 1) % n.toNat = 2 ^ 64 - 1 := Nat.div_add_mod _ _
  have hmod : (2 ^ 64 - 1) % n.toNat < n.toNat := Nat.mod_lt _ hpos
  have hsplit : n.toNat * width n = (n.toNat - 1) * width n + width n := by
    rw [Nat.sub_mul, Nat.one_mul]
    exact (Nat.sub_add_cancel (Nat.le_mul_of_pos_left _ hpos)).symm
  omega

/-! ## The choice -/

/-- With servers in use and a question, one of them is picked. -/
theorem pickUpstream_eq (lib : DnsLib) (hash : List UInt8 → UInt64) {t : UpstreamServers}
    {req : Msg} {question : Question} {more : List Question} (hreq : req.question = question :: more)
    {n : UInt64} (hn : n ≠ 0) (hlive : t.live.length = n.toNat) :
    ∃ hi : (bucket n (nameHash lib hash question)).toNat < t.live.length,
      pickUpstream lib hash t req =
        .ok (t.live.get ⟨(bucket n (nameHash lib hash question)).toNat, hi⟩) := by
  have hi : (bucket n (nameHash lib hash question)).toNat < t.live.length := by
    rw [hlive, ← UInt64.lt_iff_toNat_lt]
    exact bucket_lt hn _
  have hcount : UInt64.ofNat t.live.length = n := by rw [hlive, UInt64.ofNat_toNat]
  have hpos : ¬ n ≤ 0 := by
    rw [UInt64.le_iff_toNat_le]
    exact not_le.2 (toNat_pos_of_ne_zero hn)
  refine ⟨hi, ?_⟩
  simp only [pickUpstream, hreq, hcount, if_neg hpos, upstreamIndex_eq hn]
  simp only [bind, Except.bind, List.getElem?_eq_getElem hi]
  rfl

/-- **The choice of an upstream server is in range and balanced.**  For every number `n ≥ 1` of
servers in use, no hash makes the division panic; the index is one of the list, so that every
query picks a server; it grows with the hash; and the hashes of an index are an interval, of
`MaxUint64 / n` hashes for all indices but the last and of at most `n` more for the last. -/
theorem pick_balanced (n : UInt64) (hn : n ≠ 0) :
    ∃ index : UInt64 → UInt64,
      (∀ h, upstreamIndex h n = .ok (index h)) ∧
      (∀ h, index h < n) ∧
      (∀ lib hash t req question more, req.question = question :: more →
        t.live.length = n.toNat →
        ∃ hi : (index (nameHash lib hash question)).toNat < t.live.length,
          pickUpstream lib hash t req =
            .ok (t.live.get ⟨(index (nameHash lib hash question)).toNat, hi⟩)) ∧
      (∀ h h', h ≤ h' → index h ≤ index h') ∧
      (∀ j : UInt64, j.toNat + 1 < n.toNat →
        (∀ h, index h = j ↔ j.toNat * ((2 ^ 64 - 1) / n.toNat) ≤ h.toNat ∧
          h.toNat < (j.toNat + 1) * ((2 ^ 64 - 1) / n.toNat)) ∧
        {h | index h = j}.ncard = (2 ^ 64 - 1) / n.toNat) ∧
      (∀ h, (index h).toNat = n.toNat - 1 ↔ (n.toNat - 1) * ((2 ^ 64 - 1) / n.toNat) ≤ h.toNat) ∧
      {h | (index h).toNat = n.toNat - 1}.ncard ≤ (2 ^ 64 - 1) / n.toNat + n.toNat := by
  refine ⟨bucket n, upstreamIndex_eq hn, bucket_lt hn, ?_, fun _ _ => bucket_mono hn, ?_,
    bucket_eq_last_iff hn, ?_⟩
  · intro lib hash t req question more hreq hlive
    exact pickUpstream_eq lib hash hreq hn hlive
  · intro j hj
    exact ⟨bucket_eq_iff hj, ncard_bucket hj⟩
  · rw [ncard_last hn]
    exact rest_le hn

/-- Of two servers the last one gets at most two hashes more. -/
theorem pick_balanced_two :
    ∃ index : UInt64 → UInt64, (∀ h, upstreamIndex h 2 = .ok (index h)) ∧
      {h | index h = 0}.ncard = 9223372036854775807 ∧
      {h | (index h).toNat = 1}.ncard ≤ 9223372036854775809 := by
  obtain ⟨index, hindex, -, -, -, hfirst, -, hlast⟩ := pick_balanced 2 (by decide)
  exact ⟨index, hindex, (hfirst 0 (by decide)).2, hlast⟩

end Jojo
