import GoExperiments.Lib.Census
import GoExperiments.Vanishling.Upload

/-!
# The time to live of an upload

On its way from the header of a request to the line in the journal, the time to live passes
through `fileTTL`, a field of the journaler that all requests share: `SetFileTTL` writes it
and `GetFileTTL` reads it back, two steps later.

* `TtlAt` — what a request knows about its time to live, by its place.
* `ttlAt_called` — the request that takes a step keeps it.
* `own_ttl` — if no request sets the field while another one, with another time to live, is
  between its two calls, then every line carries the time to live of its own request.
* `ttl_of_another_request` — otherwise it may carry that of the other.
-/

namespace Vanishling

open Runs Go

variable {tp : TimePkg} {s s' t : Service} {c : Call} {ans : Answer} {pc : CallAt} {a : Act}

/-! ## Own times -/

/-- The line written for each upload carries the time to live that its request asked for. -/
def OwnTTL (tp : TimePkg) (s : Service) : Prop :=
  ∀ c ∈ s.calls, ∀ name ttl, c.pc = .committed name ttl →
    ttl = uploadTTL tp c.ttlHeader ∧ ∃ now, journalLine tp now ttl name <:+: s.journal

def CallAt.isSet : CallAt → Bool
  | .setTTL _ => true
  | _ => false

def CallAt.isGet : CallAt → Bool
  | .getTTL _ => true
  | _ => false

/-- No request calls `SetFileTTL` while another one, with another time to live, is between
its `SetFileTTL` and its `GetFileTTL`. -/
def SetAlone (tp : TimePkg) (s : Service) : Act → Prop
  | .step i _ => ∀ c ∈ s.calls[i]?, c.pc.isSet = true → ∀ c' ∈ s.calls.eraseIdx i,
      c'.pc.isGet = true → uploadTTL tp c'.ttlHeader = uploadTTL tp c.ttlHeader
  | _ => True

instance (tp : TimePkg) (s : Service) : ∀ a, Decidable (SetAlone tp s a)
  | .arrive _ => isTrue trivial
  | .step i _ => inferInstanceAs (Decidable (∀ c ∈ s.calls[i]?, c.pc.isSet = true →
      ∀ c' ∈ s.calls.eraseIdx i, c'.pc.isGet = true →
        uploadTTL tp c'.ttlHeader = uploadTTL tp c.ttlHeader))
  | .crash => isTrue trivial

/-- What a request knows about its time to live. -/
def TtlAt (tp : TimePkg) (s : Service) (c : Call) : Prop :=
  match c.pc with
  | .getTTL _ => s.fileTTL = uploadTTL tp c.ttlHeader
  | .openJournal _ ttl | .commit _ ttl => ttl = uploadTTL tp c.ttlHeader
  | .committed name ttl =>
      ttl = uploadTTL tp c.ttlHeader ∧ ∃ now, journalLine tp now ttl name <:+: s.journal
  | _ => True

/-! ## The step lemma -/

/-- Only `SetFileTTL` changes the field. -/
theorem fileTTL_called (h : Called tp s c ans t pc) :
    t.fileTTL = s.fileTTL ∨ c.pc.isSet = true ∧ t.fileTTL = uploadTTL tp c.ttlHeader := by
  cases h with
  | setTTL name hpc =>
      right
      rw [hpc]
      exact ⟨rfl, rfl⟩
  | _ => exact Or.inl rfl

/-- The request that takes the step. -/
theorem ttlAt_called (h : Called tp s c ans t pc) (hc : TtlAt tp s c) :
    TtlAt tp t { c with pc := pc } := by
  unfold TtlAt at hc
  cases h with
  | form hpc => cases ans.ok <;> trivial
  | probe hpc => cases ans.ok <;> trivial
  | setTTL name hpc => rfl
  | getTTL name hpc =>
      rw [hpc] at hc
      exact hc
  | openJournal name ttl hpc =>
      rw [hpc] at hc
      cases ans.ok
      · trivial
      · exact hc
  | commit name ttl hpc hn =>
      rw [hpc] at hc
      exact ⟨hc, ans.now, (List.suffix_append _ _).isInfix⟩
  | _ => trivial

/-- The requests that do not. -/
theorem ttlAt_frame (hc : TtlAt tp s c) (hjournal : s.journal <+: t.journal)
    (httl : c.pc.isGet = true → t.fileTTL = s.fileTTL ∨ t.fileTTL = uploadTTL tp c.ttlHeader) :
    TtlAt tp t c := by
  unfold TtlAt at hc ⊢
  cases hpc : c.pc with
  | getTTL name =>
      rw [hpc] at hc httl
      rcases httl rfl with heq | heq
      · exact heq.trans hc
      · exact heq
  | committed name ttl =>
      rw [hpc] at hc
      obtain ⟨hown, now, hline⟩ := hc
      exact ⟨hown, now, hline.trans hjournal.isInfix⟩
  | openJournal name ttl =>
      rw [hpc] at hc
      exact hc
  | commit name ttl =>
      rw [hpc] at hc
      exact hc
  | _ => trivial

/-- **The step lemma.** -/
theorem ttlAt_step (h : ∀ (i : ℕ) c, s.calls[i]? = some c → TtlAt tp s c) (hset : SetAlone tp s a)
    (hstep : step tp s a = some s') : ∀ (i : ℕ) c, s'.calls[i]? = some c → TtlAt tp s' c := by
  intro j c' hj
  cases stepped_of_step hstep with
  | arrive header =>
      rcases List.mem_append.1 (List.mem_of_getElem? hj) with hold | hnew
      · obtain ⟨k, hk⟩ := List.getElem?_of_mem hold
        exact h k c' hk
      · rw [List.mem_singleton.1 hnew]
        trivial
  | crash => exact absurd hj (by simp)
  | call i ans c t pc hc hcalled =>
      by_cases hij : i = j
      · subst hij
        rw [Census.getElem?_set_self_of_some hc, Option.some.injEq] at hj
        subst hj
        show TtlAt tp t { c with pc := pc }
        exact ttlAt_called hcalled (h i c hc)
      · rw [List.getElem?_set_ne hij] at hj
        show TtlAt tp t c'
        refine ttlAt_frame (h j c' hj) (journal_called hcalled) fun hget => ?_
        -- only another `SetFileTTL` could interfere here
        rcases fileTTL_called hcalled with heq | ⟨hisset, heq⟩
        · exact Or.inl heq
        · right
          have hmem : c' ∈ s.calls.eraseIdx i :=
            List.mem_eraseIdx_iff_getElem?.2 ⟨j, Ne.symm hij, hj⟩
          exact heq.trans (hset c hc hisset c' hmem hget).symm

/-- **Every upload keeps its own time to live** in every interleaving in which no request
sets the shared field while another one, with another time to live, is about to read it
back. -/
theorem own_ttl (tp : TimePkg) (files : Finset Bytes) (journal : Bytes) (acts : List Act)
    (hset : EachStep (step tp) (SetAlone tp) { boot with files := files, journal := journal } acts) :
    Always (step tp) (OwnTTL tp) { boot with files := files, journal := journal } acts := by
  have hall : Always (step tp) (fun s => ∀ (i : ℕ) c, s.calls[i]? = some c → TtlAt tp s c)
      { boot with files := files, journal := journal } acts :=
    always_of_eachStep (fun i c hc => absurd hc (by simp [boot]))
      (fun s a s' hs hg hstep => ttlAt_step hs hg hstep) hset
  intro pre post t hsplit hrun c hmem name ttl hpc
  obtain ⟨i, hi⟩ := List.getElem?_of_mem hmem
  have hc := hall pre post t hsplit hrun i c hi
  unfold TtlAt at hc
  rw [hpc] at hc
  exact hc

/-! ## Two requests -/

/-- A successful answer at the epoch, for a file with a hash of bytes `b`. -/
def sampleAnswer (b : UInt8) : Answer := ⟨true, ⟨List.replicate 32 b, rfl⟩, 1000, 0⟩

/-- The steps of request `i` up to its `SetFileTTL`. -/
def storeActs (i : ℕ) (b : UInt8) : List Act := List.replicate 8 (.step i (sampleAnswer b))

/-- Its `GetFileTTL` and `CommitJournal`. -/
def commitActs (i : ℕ) (b : UInt8) : List Act := List.replicate 3 (.step i (sampleAnswer b))

def twoRequests : List Act := [.arrive (ascii "10s"), .arrive (ascii "30m")]

/-- One after the other. -/
def inTurnActs : List Act :=
  twoRequests ++ storeActs 0 1 ++ commitActs 0 1 ++ storeActs 1 2 ++ commitActs 1 2

theorem own_ttl_inTurn :
    ((run (step sampleTime) boot inTurnActs).map fun t => t.calls.map fun c => c.pc) = some
        [.committed (sampleAnswer 1).digest.checksum 10000000000,
          .committed (sampleAnswer 2).digest.checksum 1800000000000] ∧
      Always (step sampleTime) (OwnTTL sampleTime) boot inTurnActs :=
  ⟨by decide +kernel, own_ttl sampleTime ∅ [] inTurnActs (by decide +kernel)⟩

/-- The second request calls `SetFileTTL` before the first one has called `GetFileTTL`. -/
def overlapActs : List Act :=
  twoRequests ++ storeActs 0 1 ++ storeActs 1 2 ++ commitActs 0 1

/-- **A line with the time to live of another request.**  The file that was to live ten
seconds is journalled for half an hour. -/
theorem ttl_of_another_request :
    ∃ t, run (step sampleTime) boot overlapActs = some t ∧ ¬ OwnTTL sampleTime t := by
  have hend : ((run (step sampleTime) boot overlapActs).map fun t => t.calls[0]?) = some
      (some ⟨ascii "10s", .committed (sampleAnswer 1).digest.checksum 1800000000000⟩) := by
    decide +kernel
  obtain ⟨t, hrun, hcall⟩ := Option.map_eq_some_iff.1 hend
  refine ⟨t, hrun, fun hown => ?_⟩
  have httl := (hown _ (List.mem_of_getElem? hcall) _ _ rfl).1
  exact absurd httl (by decide +kernel)

end Vanishling
