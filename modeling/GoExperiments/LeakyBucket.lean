import GoExperiments.Lib.Runs
import Mathlib.Tactic.Ring
import Mathlib.Tactic.Linarith

/-!
# The leaky bucket

`leakybucket/main.go` runs three goroutines over one `bucketState`: `process` takes
`leak` out of the level at every tick and offers that many slots on `ready`,
`rateLimitedHttpClient` makes one request for every slot it is given, and `debug`
listens to the request counter.  Both channels are unbuffered, so a send and its
receive are one step here.

* `Stepped` — what each step of the three goroutines can do.
* `Accounted` — the invariant: what is left in the bucket, the slots on offer and the
  slots sent since the last refill add up to the capacity, and the level is always
  above `-leak`.
* `stays_within_capacity_iff` — the level stays between zero and the capacity, and no more
  than the capacity is sent between two refills, exactly when `leak` divides the
  capacity (or the ticker cannot be made at all).

Levels are integers: `Accounted` keeps them between `-leak` and the capacity, so that the
`int` arithmetic of the program does not wrap.
-/

namespace LeakyBucket

open Runs

/-! ## The bucket -/

structure BucketState where
  dynamicCapacity : ℤ
  maxCapacity : ℤ
  leak : ℤ
  /-- in nanoseconds -/
  leakInterval : ℤ
  counter : UInt64
  enableDebug : Bool
deriving DecidableEq, Repr

/-- `log.Fatal` is the error. -/
def newLeakyBucket (dynamicCapacity leak leakInterval : ℤ) (debug : Bool) :
    Except String BucketState :=
  if leak > dynamicCapacity then
    .error "can't leak more than the dynamic capacity of the bucket"
  else
    .ok { dynamicCapacity := dynamicCapacity
          maxCapacity := dynamicCapacity
          leak := leak
          leakInterval := leakInterval
          counter := 0
          enableDebug := debug }

def BucketState.refill (b : BucketState) : BucketState :=
  { b with dynamicCapacity := b.maxCapacity }

/-! ## The goroutines -/

/-- Where `process` is: before `time.NewTicker`, in its `select`, or holding the mutex
and blocked on `b.ready <- b.leak`. -/
inductive ProcessPc
  | starting | selecting | sending
deriving DecidableEq, Repr

/-- Where `rateLimitedHttpClient` is: in its `select`, before the request for slot `i`,
or blocked on `b.counterCh` with the new count. -/
inductive ClientPc
  | selecting
  | fetching (i : ℤ)
  | reporting (i : ℤ) (count : UInt64)
deriving DecidableEq, Repr

/-- The ways the program ends. -/
inductive Exit
  | nonPositiveInterval
  | status (code : ℕ)
deriving DecidableEq, Repr

/-- What happened to the slots, for the record. -/
inductive Event
  | refilled
  | sent (slots : ℤ)
deriving DecidableEq, Repr

structure Sys where
  bucket : BucketState
  process : ProcessPc
  client : ClientPc
  /-- the counts at which `debug` printed the bucket -/
  dumps : List UInt64
  exit : Option Exit
  /-- newest first -/
  trace : List Event
deriving DecidableEq, Repr

def boot (b : BucketState) : Sys :=
  { bucket := b, process := .starting, client := .selecting, dumps := [], exit := none
    trace := [] }

/-- The slots sent on `ready` since the last refill, or since the start. -/
def slotsSinceRefill : List Event → ℤ
  | [] => 0
  | .refilled :: _ => 0
  | .sent slots :: earlier => slots + slotsSinceRefill earlier

inductive Action
  /-- `process` makes its ticker and starts its loop -/
  | start
  /-- the ticker fires -/
  | tick
  /-- the client receives from `ready` -/
  | hand
  /-- `fetchRequest` returns, or fails and ends the program -/
  | fetch (ok : Bool)
  /-- `debug` receives from `counterCh` -/
  | report
deriving DecidableEq, Repr

/-- The `for i := slots; i >= 1; i--` loop, at its test. -/
def slotLoop (i : ℤ) : ClientPc := if i ≥ 1 then .fetching i else .selecting

/-- `debug` is called with 1024. -/
def debugAt : UInt64 := 1024

/-- `debug` receives a count. -/
def debugReceive (s : Sys) (count : UInt64) : List UInt64 :=
  if count % debugAt = 0 ∧ s.bucket.enableDebug then count :: s.dumps else s.dumps

/-- The locked part of a tick: the level, and what is recorded of it. -/
def leakOnce (s : Sys) : Sys :=
  let s := if s.bucket.dynamicCapacity ≤ 0 then
      { s with bucket := s.bucket.refill, trace := .refilled :: s.trace }
    else s
  { s with bucket := { s.bucket with
             dynamicCapacity := s.bucket.dynamicCapacity - s.bucket.leak }
           process := .sending }

def step (s : Sys) (a : Action) : Option Sys :=
  if s.exit.isSome then none else
    match a, s.process, s.client with
    | .start, .starting, _ =>
        if s.bucket.leakInterval ≤ 0 then some { s with exit := some .nonPositiveInterval }
        else some { s with process := .selecting }
    | .tick, .selecting, _ => some (leakOnce s)
    | .hand, .sending, .selecting =>
        some { s with process := .selecting
                      client := slotLoop s.bucket.leak
                      trace := .sent s.bucket.leak :: s.trace }
    | .fetch true, _, .fetching i =>
        let count := s.bucket.counter + 1
        some { s with bucket := { s.bucket with counter := count }, client := .reporting i count }
    | .fetch false, _, .fetching _ => some { s with exit := some (.status 127) }
    | .report, _, .reporting i count =>
        some { s with client := slotLoop (i - 1), dumps := debugReceive s count }
    | _, _, _ => none

/-- What a step can do. -/
inductive Stepped (s : Sys) : Sys → Prop
  | panicked (hpc : s.process = .starting) (hnonpos : s.bucket.leakInterval ≤ 0) :
      Stepped s { s with exit := some .nonPositiveInterval }
  | started (hpc : s.process = .starting) (hpos : 0 < s.bucket.leakInterval) :
      Stepped s { s with process := .selecting }
  | ticked (hpc : s.process = .selecting) : Stepped s (leakOnce s)
  | handed (hpc : s.process = .sending) (hclient : s.client = .selecting) :
      Stepped s { s with process := .selecting
                         client := slotLoop s.bucket.leak
                         trace := .sent s.bucket.leak :: s.trace }
  | fetched (i : ℤ) (hclient : s.client = .fetching i) :
      Stepped s { s with bucket := { s.bucket with counter := s.bucket.counter + 1 }
                         client := .reporting i (s.bucket.counter + 1) }
  | failed (i : ℤ) (hclient : s.client = .fetching i) :
      Stepped s { s with exit := some (.status 127) }
  | reported (i : ℤ) (count : UInt64) (hclient : s.client = .reporting i count) :
      Stepped s { s with client := slotLoop (i - 1), dumps := debugReceive s count }

theorem stepped_of_step {s s' : Sys} {a : Action} (h : step s a = some s') : Stepped s s' := by
  unfold step at h
  split at h
  · cases h
  · split at h
    next _ hpc =>
        split at h <;> cases h
        · exact .panicked hpc ‹_›
        · exact .started hpc (not_le.1 ‹_›)
    next _ hpc => cases h; exact .ticked hpc
    next hpc hclient => cases h; exact .handed hpc hclient
    next i hclient => cases h; exact .fetched i hclient
    next i hclient => cases h; exact .failed i hclient
    next i count hclient => cases h; exact .reported i count hclient
    next => cases h

/-! ## What is conserved -/

/-- The slots taken out of the level that the client has not received yet. -/
def onOffer (s : Sys) : ℤ := if s.process = .sending then s.bucket.leak else 0

/-- The level, the slots on offer and the slots sent since the last refill make up the
capacity. -/
structure Accounted (capacity leak : ℤ) (s : Sys) : Prop where
  maxCapacity : s.bucket.maxCapacity = capacity
  leak_eq : s.bucket.leak = leak
  level_gt : -leak < s.bucket.dynamicCapacity
  level_le : s.bucket.dynamicCapacity ≤ capacity
  total : s.bucket.dynamicCapacity + onOffer s + slotsSinceRefill s.trace = capacity
  dvd_taken : leak ∣ capacity - s.bucket.dynamicCapacity

section Conserved

variable {capacity leak : ℤ} {s s' : Sys}

/-- A tick that refills first. -/
theorem accounted_refill (hleak : 0 < leak) (hle : leak ≤ capacity) (h : Accounted capacity leak s)
    (hlow : s.bucket.dynamicCapacity ≤ 0) : Accounted capacity leak (leakOnce s) := by
  have hmax := h.maxCapacity
  have hleakEq := h.leak_eq
  unfold leakOnce
  rw [if_pos hlow]
  constructor <;> simp only [BucketState.refill, onOffer, slotsSinceRefill, hmax, hleakEq, if_true]
  · omega
  · omega
  · omega
  · exact ⟨1, by ring⟩

/-- A tick with something left. -/
theorem accounted_leak (hleak : 0 < leak) (h : Accounted capacity leak s)
    (hpc : s.process = .selecting) (hpos : 0 < s.bucket.dynamicCapacity) :
    Accounted capacity leak (leakOnce s) := by
  have hleakEq := h.leak_eq
  have htotal := h.total
  have hlevel := h.level_le
  unfold leakOnce
  rw [if_neg (not_le.2 hpos)]
  simp only [onOffer, hpc, reduceCtorEq, if_false] at htotal
  constructor <;> simp only [onOffer, hleakEq, if_true]
  · exact h.maxCapacity
  · omega
  · omega
  · omega
  · have hmore := Int.dvd_add h.dvd_taken (Int.dvd_refl leak)
    rwa [show capacity - s.bucket.dynamicCapacity + leak
      = capacity - (s.bucket.dynamicCapacity - leak) by ring] at hmore

theorem accounted_step (hleak : 0 < leak) (hle : leak ≤ capacity) {a : Action}
    (h : Accounted capacity leak s) (hstep : step s a = some s') : Accounted capacity leak s' := by
  cases stepped_of_step hstep with
  | panicked hpc hnonpos => exact ⟨h.1, h.2, h.3, h.4, h.5, h.6⟩
  | started hpc hpos =>
      have htotal := h.total
      refine ⟨h.1, h.2, h.3, h.4, ?_, h.6⟩
      simpa [onOffer, hpc] using htotal
  | ticked hpc =>
      by_cases hlow : s.bucket.dynamicCapacity ≤ 0
      · exact accounted_refill hleak hle h hlow
      · exact accounted_leak hleak h hpc (not_le.1 hlow)
  | handed hpc hclient =>
      -- the slots on offer are now among those sent
      have htotal := h.total
      refine ⟨h.1, h.2, h.3, h.4, ?_, h.6⟩
      simp only [onOffer, hpc, if_true] at htotal
      simp only [onOffer, slotsSinceRefill, reduceCtorEq, if_false]
      omega
  | fetched i hclient => exact ⟨h.1, h.2, h.3, h.4, h.5, h.6⟩
  | failed i hclient => exact ⟨h.1, h.2, h.3, h.4, h.5, h.6⟩
  | reported i count hclient => exact ⟨h.1, h.2, h.3, h.4, h.5, h.6⟩

/-- The bucket `newLeakyBucket` makes when it accepts its arguments. -/
def freshBucket (capacity leak leakInterval : ℤ) (debug : Bool) : BucketState :=
  { dynamicCapacity := capacity, maxCapacity := capacity, leak := leak
    leakInterval := leakInterval, counter := 0, enableDebug := debug }

theorem newLeakyBucket_eq_ok (hle : leak ≤ capacity) (leakInterval : ℤ) (debug : Bool) :
    newLeakyBucket capacity leak leakInterval debug =
      .ok (freshBucket capacity leak leakInterval debug) :=
  if_neg (not_lt.2 hle)

variable {leakInterval : ℤ} {debug : Bool}

theorem accounted_boot (hleak : 0 < leak) (hle : leak ≤ capacity) :
    Accounted capacity leak (boot (freshBucket capacity leak leakInterval debug)) := by
  constructor <;> simp only [boot, freshBucket, onOffer, slotsSinceRefill, reduceCtorEq, if_false]
  · omega
  · omega
  · omega
  · exact ⟨0, by ring⟩

/-- **Accounting.**  It holds in every state the program can reach. -/
theorem accounted_reaches (hleak : 0 < leak) (hle : leak ≤ capacity)
    (h : Reaches step (boot (freshBucket capacity leak leakInterval debug)) s) :
    Accounted capacity leak s := by
  obtain ⟨as, has⟩ := h
  refine run_invariant (Accounted capacity leak) (accounted_boot hleak hle) ?_ has
  exact fun t a t' ht ht' => accounted_step hleak hle ht ht'

end Conserved

/-! ## The bound -/

/-- The level is between zero and the capacity, and no more than the capacity was sent
since the last refill. -/
def WithinCapacity (s : Sys) : Prop :=
  0 ≤ s.bucket.dynamicCapacity ∧ s.bucket.dynamicCapacity ≤ s.bucket.maxCapacity ∧
    slotsSinceRefill s.trace ≤ s.bucket.maxCapacity

instance : DecidablePred WithinCapacity := fun s => by unfold WithinCapacity; infer_instance

theorem onOffer_nonneg {capacity leak : ℤ} {s : Sys} (h : Accounted capacity leak s)
    (hleak : 0 < leak) : 0 ≤ onOffer s := by
  unfold onOffer
  split
  · exact le_of_lt (h.leak_eq ▸ hleak)
  · exact le_refl 0

/-- Within the accounting, all that can go wrong is a negative level. -/
theorem withinCapacity_iff {capacity leak : ℤ} {s : Sys} (h : Accounted capacity leak s)
    (hleak : 0 < leak) : WithinCapacity s ↔ 0 ≤ s.bucket.dynamicCapacity := by
  have hoffer := onOffer_nonneg h hleak
  have htotal := h.total
  have hlevel := h.level_le
  unfold WithinCapacity
  rw [h.maxCapacity]
  omega

/-- A level that only multiples of `leak` are taken from cannot jump over zero. -/
theorem level_nonneg {capacity leak : ℤ} {s : Sys} (h : Accounted capacity leak s)
    (hdvd : leak ∣ capacity) : 0 ≤ s.bucket.dynamicCapacity := by
  by_contra hneg
  have htaken := Int.dvd_sub h.dvd_taken hdvd
  rw [sub_sub_cancel_left] at htaken
  have hle : leak ≤ -s.bucket.dynamicCapacity := Int.le_of_dvd (by omega) htaken
  have hgt := h.level_gt
  omega

/-! ## How far the level falls -/

/-- The client makes its requests, one for every slot it was given, and comes back to its
`select`; nothing but the counter and the printed dumps has changed. -/
theorem reaches_client_selecting (n : ℕ) {s : Sys} (hexit : s.exit = none)
    (hclient : s.client = slotLoop n) :
    ∃ count dumps, Reaches step s { s with bucket := { s.bucket with counter := count }
                                           client := .selecting, dumps := dumps } := by
  induction n generalizing s with
  | zero =>
      have hidle : s.client = .selecting := hclient
      refine ⟨s.bucket.counter, s.dumps, ?_⟩
      rw [← hidle]
      exact .refl s
  | succ n ih =>
      have hfetching : s.client = .fetching (n + 1) := by
        rw [hclient, slotLoop, if_pos (by omega)]
        simp
      let s₁ : Sys := { s with
          bucket := { s.bucket with counter := s.bucket.counter + 1 }
          client := .reporting (n + 1) (s.bucket.counter + 1) }
      let s₂ : Sys := { s₁ with
          client := slotLoop n, dumps := debugReceive s₁ (s.bucket.counter + 1) }
      have hfetch : step s (.fetch true) = some s₁ := by
        simp [step, s₁, hexit, hfetching]
      have hreport : step s₁ .report = some s₂ := by
        simp [step, s₁, s₂, hexit]
      obtain ⟨count, dumps, hrest⟩ := ih (s := s₂) hexit rfl
      exact ⟨count, dumps, .head hfetch (.head hreport hrest)⟩

/-- Both goroutines wait for the other, and the bucket leaks `leak`. -/
structure Waiting (leak : ℤ) (s : Sys) : Prop where
  process : s.process = .selecting
  client : s.client = .selecting
  exit : s.exit = none
  leak_eq : s.bucket.leak = leak

/-- A tick above level zero and all its requests lower the level by `leak`. -/
theorem reaches_tick {leak : ℤ} {s : Sys} (h : Waiting leak s) (hleak : 0 < leak)
    (hpos : 0 < s.bucket.dynamicCapacity) :
    ∃ s', Reaches step s s' ∧ Waiting leak s' ∧
      s'.bucket.dynamicCapacity = s.bucket.dynamicCapacity - leak := by
  let s₁ : Sys := { s with
      bucket := { s.bucket with dynamicCapacity := s.bucket.dynamicCapacity - s.bucket.leak }
      process := .sending }
  have htick : step s .tick = some s₁ := by
    have hlevel : leakOnce s = s₁ := by
      rw [leakOnce, if_neg (by omega)]
    simp [step, h.exit, h.process, hlevel]
  let s₂ : Sys := { s₁ with
      process := .selecting
      client := slotLoop leak
      trace := .sent leak :: s.trace }
  have hhand : step s₁ .hand = some s₂ := by
    simp [step, s₁, s₂, h.exit, h.client, h.leak_eq]
  -- the client works its slots off before the next tick
  have hslots : s₂.client = slotLoop leak.toNat := by
    show slotLoop leak = _
    rw [Int.toNat_of_nonneg (le_of_lt hleak)]
  obtain ⟨count, dumps, hidle⟩ := reaches_client_selecting leak.toNat (s := s₂) h.exit hslots
  refine ⟨_, .head htick (.head hhand hidle), ⟨rfl, rfl, h.exit, h.leak_eq⟩, ?_⟩
  show s.bucket.dynamicCapacity - s.bucket.leak = _
  rw [h.leak_eq]

/-- After `k` ticks without a refill, everything sent, the level has fallen by `k * leak`. -/
theorem reaches_level {capacity leak leakInterval : ℤ} (debug : Bool) (hleak : 0 < leak)
    (hinterval : 0 < leakInterval) (k : ℕ) (hk : (k - 1) * leak < capacity) :
    ∃ s, Reaches step (boot (freshBucket capacity leak leakInterval debug)) s ∧
      Waiting leak s ∧ s.bucket.dynamicCapacity = capacity - k * leak := by
  induction k with
  | zero =>
      let b := freshBucket capacity leak leakInterval debug
      have hstart : step (boot b) .start = some { boot b with process := .selecting } := by
        simp only [step, boot, b, freshBucket, Option.isSome_none, Bool.false_eq_true, if_false]
        rw [if_neg (by omega)]
      refine ⟨_, .head hstart (.refl _), ⟨rfl, rfl, rfl, rfl⟩, ?_⟩
      show capacity = capacity - (0 : ℕ) * leak
      simp
  | succ k ih =>
      have hpos : 0 < capacity - k * leak := by
        rw [Nat.cast_succ, add_sub_cancel_right] at hk
        omega
      have hk' : ((k : ℤ) - 1) * leak < capacity := by
        rw [sub_mul]
        omega
      obtain ⟨s, hs, hwaiting, hlevel⟩ := ih hk'
      obtain ⟨s', hs', hwaiting', hlevel'⟩ := reaches_tick hwaiting hleak (by omega)
      refine ⟨s', hs.trans hs', hwaiting', ?_⟩
      rw [hlevel', hlevel]
      push_cast
      ring

/-- A capacity that `leak` does not divide is overdrawn by the tick after the last whole one. -/
theorem reaches_negative {capacity leak leakInterval : ℤ} (debug : Bool) (hleak : 0 < leak)
    (hle : leak ≤ capacity) (hinterval : 0 < leakInterval) (hdvd : ¬ leak ∣ capacity) :
    ∃ s, Reaches step (boot (freshBucket capacity leak leakInterval debug)) s ∧
      s.bucket.dynamicCapacity < 0 := by
  have hdiv := Int.mul_ediv_add_emod capacity leak
  have hlt := Int.emod_lt_of_pos capacity hleak
  have hpos : 0 < capacity % leak := by
    have hnonneg := Int.emod_nonneg capacity (ne_of_gt hleak)
    have hne : capacity % leak ≠ 0 := fun h => hdvd (Int.dvd_of_emod_eq_zero h)
    omega
  have hquot : 0 ≤ capacity / leak := Int.ediv_nonneg (by omega) (le_of_lt hleak)
  have hcast : ((capacity / leak).toNat : ℤ) = capacity / leak := Int.toNat_of_nonneg hquot
  have hlast : (((capacity / leak).toNat + 1 : ℕ) - 1 : ℤ) * leak < capacity := by
    rw [Nat.cast_succ, add_sub_cancel_right, hcast, mul_comm]
    omega
  obtain ⟨s, hs, -, hlevel⟩ :=
    reaches_level debug hleak hinterval ((capacity / leak).toNat + 1) hlast
  refine ⟨s, hs, ?_⟩
  rw [hlevel, Nat.cast_succ, hcast, add_mul, mul_comm, one_mul]
  omega

/-- A ticker that cannot be made ends the program before its first tick. -/
theorem level_of_nonpositive_interval {capacity leak leakInterval : ℤ} {debug : Bool}
    (hinterval : leakInterval ≤ 0) {s : Sys}
    (h : Reaches step (boot (freshBucket capacity leak leakInterval debug)) s) :
    s.bucket.dynamicCapacity = capacity := by
  obtain ⟨as, has⟩ := h
  have hidle : s.process = .starting ∧ s.client = .selecting ∧ s.bucket.leakInterval ≤ 0 ∧
      s.bucket.dynamicCapacity = capacity := by
    refine run_invariant (fun s => s.process = .starting ∧ s.client = .selecting ∧
      s.bucket.leakInterval ≤ 0 ∧ s.bucket.dynamicCapacity = capacity)
      ⟨rfl, rfl, hinterval, rfl⟩ ?_ has
    rintro t a t' ⟨hpc, hclient, hnonpos, hlevel⟩ ht'
    cases stepped_of_step ht' with
    | panicked _ _ => exact ⟨hpc, hclient, hnonpos, hlevel⟩
    | started _ hpos => exact absurd hpos (not_lt.2 hnonpos)
    | ticked h => rw [hpc] at h; cases h
    | handed h _ => rw [hpc] at h; cases h
    | fetched i h => rw [hclient] at h; cases h
    | failed i h => rw [hclient] at h; cases h
    | reported i c h => rw [hclient] at h; cases h
  exact hidle.2.2.2

/-- **The capacity bound.**  `newLeakyBucket` accepts every `0 < leak ≤ capacity`.  From the
bucket it makes, every state of every run keeps the level between zero and the capacity and
sends no more than the capacity between two refills exactly when `leak` divides the
capacity, or there is no ticker at all. -/
theorem stays_within_capacity_iff (capacity leak leakInterval : ℤ) (debug : Bool)
    (hleak : 0 < leak) (hle : leak ≤ capacity) :
    ∃ b, newLeakyBucket capacity leak leakInterval debug = .ok b ∧
      ((∀ as, Always step WithinCapacity (boot b) as) ↔ leak ∣ capacity ∨ leakInterval ≤ 0) := by
  refine ⟨_, newLeakyBucket_eq_ok hle leakInterval debug, ?_⟩
  rw [forall_always_iff]
  constructor
  · intro hall
    by_contra hno
    rw [not_or, not_le] at hno
    obtain ⟨s, hs, hneg⟩ := reaches_negative debug hleak hle hno.2 hno.1
    exact absurd (hall s hs).1 (not_le.2 hneg)
  · intro hgood s hs
    have hacc := accounted_reaches hleak hle hs
    rw [withinCapacity_iff hacc hleak]
    rcases hgood with hdvd | hinterval
    · exact level_nonneg hacc hdvd
    · rw [level_of_nonpositive_interval hinterval hs]
      omega

/-- Capacity 12 with leak 4 divides, and the bound holds. -/
theorem stays_within_capacity_twelve_four :
    (0 : ℤ) < 4 ∧ (4 : ℤ) ≤ 12 ∧ ∃ b, newLeakyBucket 12 4 500000000 true = .ok b ∧
      ((∀ as, Always step WithinCapacity (boot b) as) ↔ (4 : ℤ) ∣ 12 ∨ (500000000 : ℤ) ≤ 0) :=
  ⟨by decide, by decide, stays_within_capacity_iff 12 4 500000000 true (by decide) (by decide)⟩

/-- One tick, its slots handed over and its four requests made. -/
def leakFour : List Action :=
  [.tick, .hand, .fetch true, .report, .fetch true, .report, .fetch true, .report, .fetch true,
    .report]

/-- The bucket `main` makes, of capacity 10 and leak 4: the third tick leaves the level at
-2, with twelve slots sent and no refill yet. -/
theorem main_bucket_overdrawn :
    ∃ s, run step (boot (freshBucket 10 4 500000000 true))
        (.start :: (leakFour ++ leakFour ++ leakFour)) = some s ∧
      newLeakyBucket 10 4 500000000 true = .ok (freshBucket 10 4 500000000 true) ∧
      s.bucket.dynamicCapacity = -2 ∧ slotsSinceRefill s.trace = 12 ∧ ¬ WithinCapacity s := by
  refine ⟨_, rfl, rfl, ?_⟩
  decide +kernel

end LeakyBucket
