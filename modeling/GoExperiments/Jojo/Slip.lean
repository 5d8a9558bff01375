import GoExperiments.Lib.Runs
import GoExperiments.Lib.Census

/-!
# Shedding load

The counter `slip` of `jojo/jojo.go`.  A resolver thread adds one for each request
that was too old when its turn came; the vacuum thread resets it; a call of `route`
that finds no fresh answer sheds its request when the counter is even and not zero,
and is to make the counter odd.  It reads the counter and swaps it in two steps, and
does not look at whether the swap took place.

* `slipInv_step` — as long as no two calls hold the same value of the counter, at
  most as many requests are shed as were too late.
* `shed_bounded_iff` — this is so in every run with at most `K` calls between their
  two steps exactly when `K` is at most one.
-/

namespace Jojo

open Runs Census

/-- The test of the slip branch on the value that was loaded. -/
def slips (slipValue : UInt32) : Bool := decide (0 < slipValue) && slipValue % 2 == 0

/-- Whether the slip branch sends a truncated reply, or closes the connection. -/
def slipTruncates (slipValue : UInt32) : Bool := slipValue % 4 == 0

/-- Where a call of `route` with no fresh answer is. -/
inductive SlipPc where
  /-- At `atomic.LoadUint32(&slip)`. -/
  | load
  /-- At `atomic.CompareAndSwapUint32(&slip, slipValue, slipValue+1)`. -/
  | swap (slipValue : UInt32)
  /-- At `sendTruncated` or `w.Close`. -/
  | shed (slipValue : UInt32)
  /-- It has dropped its request or sent a truncated reply. -/
  | slipped (truncated : Bool)
  /-- It goes on to resolve its request. -/
  | resolving
  deriving DecidableEq

/-- The counter, the calls, and the number of increments so far. -/
structure SlipState where
  slip : UInt32
  calls : List SlipPc
  tooOld : ℕ
  deriving DecidableEq

/-- The atomic steps. -/
inductive SlipAction where
  | arrive
  | load (i : ℕ)
  | swap (i : ℕ)
  | shed (i : ℕ)
  /-- A resolver thread counts a request that was too old. -/
  | add
  /-- The vacuum thread resets the counter. -/
  | reset
  deriving DecidableEq

/-- One step. -/
def slipStep (s : SlipState) : SlipAction → Option SlipState
  | .arrive => some { s with calls := s.calls ++ [.load] }
  | .load i => match s.calls[i]? with
      | some .load =>
          some { s with calls := s.calls.set i (if slips s.slip then .swap s.slip else .resolving) }
      | _ => none
  | .swap i => match s.calls[i]? with
      | some (.swap v) =>
          some { s with
            slip := if s.slip = v then v + 1 else s.slip
            calls := s.calls.set i (.shed v) }
      | _ => none
  | .shed i => match s.calls[i]? with
      | some (.shed v) => some { s with calls := s.calls.set i (.slipped (slipTruncates v)) }
      | _ => none
  | .add => some { s with slip := s.slip + 1, tooOld := s.tooOld + 1 }
  | .reset => some { s with slip := 0 }

/-- Before the first call. -/
def slipStart : SlipState := ⟨0, [], 0⟩

/-- The call has shed its request. -/
def SlipPc.isSlipped : SlipPc → Bool
  | .slipped _ => true
  | _ => false

/-- The call is between its two steps. -/
def SlipPc.isSwapping : SlipPc → Bool
  | .swap _ => true
  | _ => false

/-- The call has found the counter even. -/
def SlipPc.hasHit : SlipPc → Bool
  | .swap _ => true
  | .shed _ => true
  | .slipped _ => true
  | _ => false

/-- The number of requests shed. -/
def SlipState.slipped (s : SlipState) : ℕ := s.calls.countP SlipPc.isSlipped

/-- The number of calls between their two steps. -/
def SlipState.swapping (s : SlipState) : ℕ := s.calls.countP SlipPc.isSwapping

/-! ## The parity of the counter -/

theorem slips_iff {v : UInt32} : slips v = true ↔ v.toNat ≠ 0 ∧ v.toNat % 2 = 0 := by
  unfold slips
  rw [Bool.and_eq_true, decide_eq_true_eq, beq_iff_eq, UInt32.pos_iff_ne_zero, ne_eq,
    ← UInt32.toNat_inj, ← UInt32.toNat_inj, UInt32.toNat_mod]
  rfl

/-- After the swap the counter is odd. -/
theorem slips_succ {v : UInt32} (h : slips v = true) : slips (v + 1) = false := by
  rw [slips_iff] at h
  rw [Bool.eq_false_iff, ne_eq, slips_iff, UInt32.toNat_add]
  have hlt := v.toNat_lt
  have hone : (1 : UInt32).toNat = 1 := rfl
  omega

theorem slips_zero : slips 0 = false := rfl

/-! ## What a step can do -/

/-- What a step can do. -/
inductive SlipStepped (s : SlipState) : SlipAction → SlipState → Prop
  | arrive : SlipStepped s .arrive { s with calls := s.calls ++ [.load] }
  | hit {i : ℕ} (hi : s.calls[i]? = some .load) (h : slips s.slip = true) :
      SlipStepped s (.load i) { s with calls := s.calls.set i (.swap s.slip) }
  | pass {i : ℕ} (hi : s.calls[i]? = some .load) (h : slips s.slip = false) :
      SlipStepped s (.load i) { s with calls := s.calls.set i .resolving }
  | swapped {i : ℕ} (hi : s.calls[i]? = some (.swap s.slip)) :
      SlipStepped s (.swap i) { s with slip := s.slip + 1, calls := s.calls.set i (.shed s.slip) }
  | lost {i : ℕ} {v : UInt32} (hi : s.calls[i]? = some (.swap v)) (h : s.slip ≠ v) :
      SlipStepped s (.swap i) { s with calls := s.calls.set i (.shed v) }
  | shed {i : ℕ} {v : UInt32} (hi : s.calls[i]? = some (.shed v)) :
      SlipStepped s (.shed i) { s with calls := s.calls.set i (.slipped (slipTruncates v)) }
  | add : SlipStepped s .add { s with slip := s.slip + 1, tooOld := s.tooOld + 1 }
  | reset : SlipStepped s .reset { s with slip := 0 }

theorem slipStepped_of_slipStep {s s' : SlipState} {a : SlipAction} (h : slipStep s a = some s') :
    SlipStepped s a s' := by
  cases a with
  | arrive => cases h; exact .arrive
  | load i =>
      simp only [slipStep] at h
      split at h
      · rename_i hi
        by_cases hslip : slips s.slip = true
        · rw [if_pos hslip] at h
          cases h; exact .hit hi hslip
        · rw [if_neg hslip] at h
          cases h; exact .pass hi (by simpa using hslip)
      · exact absurd h (by simp)
  | swap i =>
      simp only [slipStep] at h
      split at h
      · rename_i v hi
        by_cases hv : s.slip = v
        · subst hv
          rw [if_pos rfl] at h
          cases h; exact .swapped hi
        · rw [if_neg hv] at h
          cases h; exact .lost hi hv
      · exact absurd h (by simp)
  | shed i =>
      simp only [slipStep] at h
      split at h
      · rename_i v hi
        cases h; exact .shed hi
      · exact absurd h (by simp)
  | add => cases h; exact .add
  | reset => cases h; exact .reset

/-! ## What bounds the requests shed -/

/-- A call does not load an even value that another call holds, to swap it. -/
def Unshared (s : SlipState) : SlipAction → Prop
  | .load _ => slips s.slip = true → .swap s.slip ∉ s.calls
  | _ => True

/-- What a call is going to swap is even. -/
def SlipPc.Even : SlipPc → Prop
  | .swap v => slips v = true
  | _ => True

/-- Every call that found the counter even is paid for by an increment, and so is
the next one, unless some call is still to swap the counter as it is. -/
structure SlipInv (s : SlipState) : Prop where
  paid : s.calls.countP SlipPc.hasHit ≤ s.tooOld
  next : slips s.slip = true → .swap s.slip ∈ s.calls ∨
    s.calls.countP SlipPc.hasHit + 1 ≤ s.tooOld
  even : ∀ pc ∈ s.calls, pc.Even

theorem slipInv_start : SlipInv slipStart :=
  ⟨Nat.le_refl _, fun h => absurd h (by decide), fun pc hpc => absurd hpc (by simp [slipStart])⟩

/-- **One step.**  The counter pays for what is shed as long as no value of it is
shared. -/
theorem slipInv_step {s s' : SlipState} {a : SlipAction} (h : SlipInv s) (hguard : Unshared s a)
    (hstep : slipStep s a = some s') : SlipInv s' := by
  have hpaid := h.paid
  cases slipStepped_of_slipStep hstep with
  | arrive =>
      refine ⟨?_, fun hs => ?_, forall_mem_concat h.even trivial⟩
      · simpa [countP_concat, SlipPc.hasHit] using hpaid
      · simpa [countP_concat, SlipPc.hasHit] using h.next hs
  | @hit i hi hs =>
      have hcount := countP_set_add hi SlipPc.hasHit (.swap s.slip)
      simp only [SlipPc.hasHit, Bool.toNat_false, Bool.toNat_true] at hcount
      have hcredit := (h.next hs).resolve_left (hguard hs)
      refine ⟨?_, fun _ => Or.inl ?_, forall_mem_set h.even (b := .swap s.slip) hs i⟩
      · simp only
        omega
      · exact List.mem_set (List.getElem?_eq_some_iff.1 hi).1 _
  | @pass i hi hs =>
      have hcount := countP_set_add hi SlipPc.hasHit .resolving
      simp only [SlipPc.hasHit, Bool.toNat_false] at hcount
      refine ⟨?_, fun hs' => absurd hs' (by simp [hs]),
        forall_mem_set h.even (b := .resolving) trivial i⟩
      simp only
      omega
  | @swapped i hi =>
      have hcount := countP_set_add hi SlipPc.hasHit (.shed s.slip)
      simp only [SlipPc.hasHit] at hcount
      have heven : slips s.slip = true := h.even _ (List.mem_of_getElem? hi)
      refine ⟨?_, fun hs' => absurd hs' (by simp [slips_succ heven]),
        forall_mem_set h.even (b := .shed s.slip) trivial i⟩
      simp only
      omega
  | @lost i v hi hne =>
      have hcount := countP_set_add hi SlipPc.hasHit (.shed v)
      simp only [SlipPc.hasHit] at hcount
      refine ⟨?_, fun hs => ?_, forall_mem_set h.even (b := .shed v) trivial i⟩
      · simp only
        omega
      · -- the call that is to swap the counter as it is, if any, is another one
        rcases h.next hs with hmem | hcredit
        · exact Or.inl (mem_set_of_ne hi hmem (by simpa using hne) _)
        · right
          simp only
          omega
  | @shed i v hi =>
      have hcount := countP_set_add hi SlipPc.hasHit (.slipped (slipTruncates v))
      simp only [SlipPc.hasHit] at hcount
      refine ⟨?_, fun hs => ?_, forall_mem_set h.even (b := .slipped (slipTruncates v)) trivial i⟩
      · simp only
        omega
      · rcases h.next hs with hmem | hcredit
        · exact Or.inl (mem_set_of_ne hi hmem (by simp) _)
        · right
          simp only
          omega
  | add => exact ⟨Nat.le_succ_of_le hpaid, fun _ => Or.inr (Nat.succ_le_succ hpaid), h.even⟩
  | reset => exact ⟨hpaid, fun hs => absurd hs (by simp [slips_zero]), h.even⟩

theorem slipped_le_of_slipInv {s : SlipState} (h : SlipInv s) : s.slipped ≤ s.tooOld := by
  have hle : s.slipped ≤ s.calls.countP SlipPc.hasHit := by
    refine List.countP_mono_left fun pc _ hpc => ?_
    cases pc with
    | slipped truncated => rfl
    | load | swap | shed | resolving => exact absurd hpc (by simp [SlipPc.isSlipped])
  exact Nat.le_trans hle h.paid

/-- **Values that are not shared.** -/
theorem shed_of_unshared {acts : List SlipAction}
    (h : EachStep slipStep Unshared slipStart acts) :
    Always slipStep (fun s => s.slipped ≤ s.tooOld) slipStart acts := by
  have hinv : Always slipStep SlipInv slipStart acts :=
    always_of_eachStep slipInv_start (fun _ _ _ => slipInv_step) h
  exact fun pre post s hsplit hrun => slipped_le_of_slipInv (hinv pre post s hsplit hrun)

/-- With one call at a time between its two steps no value is shared. -/
theorem unshared_of_alone {s s' : SlipState} {a : SlipAction} (hstep : slipStep s a = some s')
    (h : s'.swapping ≤ 1) : Unshared s a := by
  cases slipStepped_of_slipStep hstep with
  | @hit i hi hs =>
      intro _ hmem
      have hpos : 0 < s.swapping := List.countP_pos_iff.2 ⟨_, hmem, rfl⟩
      have hcount := countP_set_add hi SlipPc.isSwapping (.swap s.slip)
      simp only [SlipPc.isSwapping, Bool.toNat_false, Bool.toNat_true] at hcount
      simp only [SlipState.swapping] at h hpos
      omega
  | pass hi hs => exact fun hs' => absurd hs' (by simp [hs])
  | arrive | swapped | lost | shed | add | reset => trivial

/-- Two late requests, two calls that both find the counter at two; a third late
request, and two calls that both find the counter at four. -/
def twoAtOnce : List SlipAction :=
  [.add, .add, .arrive, .arrive, .load 0, .load 1, .swap 0, .swap 1, .shed 0, .shed 1,
    .add, .arrive, .arrive, .load 2, .load 3, .swap 2, .swap 3, .shed 2, .shed 3]

/-- **What bounds the requests shed.**  In a run in which no call loads an even
value of the counter that another call holds, at most as many requests are shed as
were too late; and this is so in every run with at most `K` calls between their two
steps exactly when `K` is at most one. -/
theorem shed_bounded_iff (K : ℕ) (acts : List SlipAction) :
    (EachStep slipStep Unshared slipStart acts →
        Always slipStep (fun s => s.slipped ≤ s.tooOld) slipStart acts) ∧
      ((∀ acts, Always slipStep (fun s => s.swapping ≤ K) slipStart acts →
        Always slipStep (fun s => s.slipped ≤ s.tooOld) slipStart acts) ↔ K ≤ 1) := by
  refine ⟨shed_of_unshared, ⟨fun h => ?_, fun hK acts h => ?_⟩⟩
  · by_contra hK
    have hfew : Always slipStep (fun s => s.swapping ≤ 2) slipStart twoAtOnce := by
      decide +kernel
    have hbad : ¬ Always slipStep (fun s => s.slipped ≤ s.tooOld) slipStart twoAtOnce := by
      decide +kernel
    refine hbad (h twoAtOnce fun pre post s hsplit hrun => ?_)
    exact Nat.le_trans (hfew pre post s hsplit hrun) (by omega)
  · refine shed_of_unshared fun pre a post s s' hsplit hrun hstep => ?_
    have hs' : s'.swapping ≤ K := by
      refine h (pre ++ [a]) post s' ?_ (run_concat_eq_some.2 ⟨s, hrun, hstep⟩)
      rw [hsplit, List.append_assoc]; rfl
    exact unshared_of_alone hstep (Nat.le_trans hs' hK)

/-- **More shed than late.**  Two late requests make the counter two; three calls
load it before one of them swaps it, and all three shed their request. -/
theorem three_shed_for_two :
    let acts : List SlipAction := [.add, .add, .arrive, .arrive, .arrive, .load 0, .load 1, .load 2,
      .swap 0, .swap 1, .swap 2, .shed 0, .shed 1, .shed 2]
    let last : SlipState := ⟨3, [.slipped false, .slipped false, .slipped false], 2⟩
    run slipStep slipStart acts = some last ∧ ¬ last.slipped ≤ last.tooOld := by
  decide +kernel

end Jojo
