import GoExperiments.Lib.Runs
import Mathlib.Algebra.Field.Rat
import Mathlib.Algebra.Order.Ring.NNRat
import Mathlib.Algebra.Order.BigOperators.Group.List

/-!
# The Kafka rolling restarter

`kafka-rolling-restarter/main.go` asks Prometheus for three metrics in a loop and restarts
the local Kafka service once they look healthy.

* `promQueryRange` — one range query; its error paths are what matters here: an answer
  with warnings comes back as no matrix *and* no error.
* `iteration` — the body of the loop of `main`; `callsRestart_iff` says when it restarts.
* `step` — the loop as a state machine; `restarts_reaches` is its run lemma: a run restarts
  at most once, in an iteration that looked healthy, and then it is over.
* `restarts_only_when_healthy_iff` — an iteration restarts only on complete, healthy metrics
  except when warnings hid one of the two key metrics.

Sample values are exact non-negative rationals.
-/

namespace KafkaRestarter

open Runs

/-! ## Answers of Prometheus -/

/-- `model.SamplePair`. -/
structure SamplePair where
  timestamp : ℤ
  value : ℚ≥0
deriving DecidableEq

/-- `model.Matrix`: the values of each series.  A nil matrix is the empty one. -/
abbrev Matrix := List (List SamplePair)

/-- `model.Value`, of which only the matrix is of use to the program. -/
inductive Value
  | matrix (m : Matrix)
  | vector | scalar | string | nil
deriving DecidableEq

/-- What `QueryRange` returns: an error, or a value with its warnings. -/
abbrev Answer := Except String (Value × List String)

/-- The matrix and the error. -/
def promQueryRange : Answer → Matrix × Option String
  | .error err => ([], some err)
  | .ok (result, warnings) =>
      -- `err` is nil when the warnings are looked at
      if warnings.length > 0 then ([], none)
      else match result with
        | .matrix m => (m, none)
        | _ => ([], some "could not type assert to model.Matrix")

/-- The two nested loops over a matrix, from the sum so far. -/
def addSamples (sum : ℚ≥0) (m : Matrix) : ℚ≥0 :=
  m.foldl (fun sum x => x.foldl (fun sum v => sum + v.value) sum) sum

def getKeyMetricsSum (urp isr : Matrix) : ℚ≥0 := addSamples (addSamples 0 urp) isr

def getActiveControllerSum (acc : Matrix) : ℚ≥0 := addSamples 0 acc

def controllersSum : ℚ≥0 := 1

def keyMetricsSum : ℚ≥0 := 0

def isRestartRequired (a k : ℚ≥0) : Bool := k = keyMetricsSum && a = controllersSum

/-! ## The loop of `main` -/

/-- `exec.Command`. -/
structure Command where
  name : String
  args : List String
deriving DecidableEq, Repr

/-- The command of `restart`. -/
def restart (serviceName : String) : Command := ⟨"systemctl", ["restart " ++ serviceName]⟩

/-- What the outside answers in one iteration: the three queries, and the restart if it
comes to one. -/
structure Answers where
  urp : Answer
  isr : Answer
  acc : Answer
  restartErr : Option String

/-- How an iteration ends. -/
inductive Outcome
  /-- `os.Exit(1)` after a failed query -/
  | queryFailed (message : String)
  /-- the restart command was run, with its error -/
  | restarted (cmd : Command) (err : Option String)
  /-- healthy, but the `-r` flag is not given: sleep a minute and go on -/
  | dryRun
  /-- not healthy: go on -/
  | waits
deriving DecidableEq, Repr

def queryFailure (err : String) : Outcome :=
  .queryFailed ("error querying Prometheus: " ++ err ++ "\n")

def iteration (restartKafkaService : Bool) (q : Answers) : Outcome :=
  match promQueryRange q.urp with
  | (_, some err) => queryFailure err
  | (urp, none) =>
    match promQueryRange q.isr with
    | (_, some err) => queryFailure err
    | (isr, none) =>
      match promQueryRange q.acc with
      | (_, some err) => queryFailure err
      | (acc, none) =>
        let activeControllerSum := 0 + getActiveControllerSum acc
        let keyMetricsSum := 0 + getKeyMetricsSum urp isr
        if isRestartRequired activeControllerSum keyMetricsSum = true then
          if restartKafkaService = true then
            .restarted (restart "kafka-server.service") q.restartErr
          else .dryRun
        else .waits

/-- The iteration ran the restart command, whatever came of it. -/
def Outcome.CallsRestart (o : Outcome) : Prop := ∃ cmd err, o = .restarted cmd err

instance (o : Outcome) : Decidable o.CallsRestart :=
  match o with
  | .restarted cmd err => isTrue ⟨cmd, err, rfl⟩
  | .queryFailed _ | .dryRun | .waits => isFalse fun ⟨_, _, h⟩ => nomatch h

/-! ## Sums -/

/-- All sample values of a matrix. -/
def samples (m : Matrix) : List ℚ≥0 := m.flatten.map SamplePair.value

theorem foldl_values (x : List SamplePair) (sum : ℚ≥0) :
    x.foldl (fun sum v => sum + v.value) sum = sum + (x.map SamplePair.value).sum := by
  induction x generalizing sum with
  | nil => simp
  | cons v x ih =>
      rw [List.foldl_cons, ih, List.map_cons, List.sum_cons, add_assoc]

theorem addSamples_eq (sum : ℚ≥0) (m : Matrix) : addSamples sum m = sum + (samples m).sum := by
  induction m generalizing sum with
  | nil => simp [addSamples, samples]
  | cons x m ih =>
      have hstep : addSamples sum (x :: m) = addSamples (sum + (x.map SamplePair.value).sum) m := by
        rw [← foldl_values]
        rfl
      rw [hstep, ih, add_assoc]
      simp [samples]

theorem getActiveControllerSum_eq (acc : Matrix) :
    getActiveControllerSum acc = (samples acc).sum := by
  rw [getActiveControllerSum, addSamples_eq, zero_add]

/-- Samples are not negative, so none of them can make up for another. -/
theorem getKeyMetricsSum_eq_zero_iff (urp isr : Matrix) :
    getKeyMetricsSum urp isr = 0 ↔ (∀ v ∈ samples urp, v = 0) ∧ ∀ v ∈ samples isr, v = 0 := by
  rw [getKeyMetricsSum, addSamples_eq, addSamples_eq, zero_add, add_eq_zero,
    List.sum_eq_zero_iff, List.sum_eq_zero_iff]

/-! ## When an iteration restarts -/

/-- The query came back with warnings. -/
def Warned (r : Answer) : Prop := ∃ result w ws, r = .ok (result, w :: ws)

/-- The query came back with the matrix, no error and no warning. -/
def Complete (r : Answer) (m : Matrix) : Prop := r = .ok (.matrix m, [])

/-- **What the program takes for a matrix**: a complete answer, or an empty matrix in place
of any answer with warnings. -/
theorem promQueryRange_eq_none_iff {r : Answer} {m : Matrix} :
    promQueryRange r = (m, none) ↔ Complete r m ∨ Warned r ∧ m = [] := by
  unfold Complete Warned
  match r with
  | .error err => simp [promQueryRange]
  | .ok (result, w :: ws) => simp [promQueryRange, eq_comm]
  | .ok (.matrix m', []) => simp [promQueryRange]
  | .ok (.vector, []) | .ok (.scalar, []) | .ok (.string, []) | .ok (.nil, []) =>
      simp [promQueryRange]

/-- The metrics of an iteration as the program sees them. -/
structure LooksHealthy (q : Answers) (urp isr acc : Matrix) : Prop where
  urp_seen : promQueryRange q.urp = (urp, none)
  isr_seen : promQueryRange q.isr = (isr, none)
  acc_seen : promQueryRange q.acc = (acc, none)
  urp_zero : ∀ v ∈ samples urp, v = 0
  isr_zero : ∀ v ∈ samples isr, v = 0
  acc_one : (samples acc).sum = 1

theorem isRestartRequired_iff (urp isr acc : Matrix) :
    isRestartRequired (0 + getActiveControllerSum acc) (0 + getKeyMetricsSum urp isr) = true ↔
      ((∀ v ∈ samples urp, v = 0) ∧ ∀ v ∈ samples isr, v = 0) ∧ (samples acc).sum = 1 := by
  rw [zero_add, zero_add, getActiveControllerSum_eq, ← getKeyMetricsSum_eq_zero_iff]
  rw [isRestartRequired, Bool.and_eq_true, decide_eq_true_eq, decide_eq_true_eq]
  rfl

/-- An iteration restarts exactly when the flag is given and the metrics look healthy. -/
theorem callsRestart_iff (restartKafkaService : Bool) (q : Answers) :
    (iteration restartKafkaService q).CallsRestart ↔
      restartKafkaService = true ∧ ∃ urp isr acc, LooksHealthy q urp isr acc := by
  have hseen : (∃ urp isr acc, LooksHealthy q urp isr acc) ↔ ∃ urp isr acc,
      promQueryRange q.urp = (urp, none) ∧ promQueryRange q.isr = (isr, none) ∧
        promQueryRange q.acc = (acc, none) ∧
        isRestartRequired (0 + getActiveControllerSum acc) (0 + getKeyMetricsSum urp isr) =
          true := by
    refine exists_congr fun urp => exists_congr fun isr => exists_congr fun acc => ?_
    rw [isRestartRequired_iff]
    exact ⟨fun h => ⟨h.1, h.2, h.3, ⟨h.4, h.5⟩, h.6⟩, fun ⟨h1, h2, h3, h4, h6⟩ =>
      ⟨h1, h2, h3, h4.1, h4.2, h6⟩⟩
  rw [hseen]
  unfold iteration Outcome.CallsRestart queryFailure
  -- the three queries in the order of the source; each may end the program
  rcases promQueryRange q.urp with ⟨urp, _ | err⟩
  · rcases promQueryRange q.isr with ⟨isr, _ | err⟩
    · rcases promQueryRange q.acc with ⟨acc, _ | err⟩
      · have hsums : ∀ required : Bool, (∃ cmd err,
            (if required = true then
              if restartKafkaService = true then
                Outcome.restarted (restart "kafka-server.service") q.restartErr
              else .dryRun
            else .waits) = .restarted cmd err) ↔ restartKafkaService = true ∧ required = true := by
          intro required
          cases required <;> cases restartKafkaService <;> simp
        rw [hsums]
        simp
      · simp
    · simp
  · simp

/-! ## Runs of the loop -/

inductive Status
  | polling | done | exited
deriving DecidableEq, Repr

/-- The loop of `main`, with the iterations in which it restarted, newest first. -/
structure Main where
  restarts : List Answers
  status : Status

def start : Main := ⟨[], .polling⟩

/-- One iteration; the loop is over once it restarted or a query failed. -/
def step (restartKafkaService : Bool) (s : Main) (q : Answers) : Option Main :=
  match s.status with
  | .polling => match iteration restartKafkaService q with
      | .queryFailed _ => some { s with status := .exited }
      | .restarted _ none => some { restarts := q :: s.restarts, status := .done }
      | .restarted _ (some _) => some { restarts := q :: s.restarts, status := .exited }
      | .dryRun | .waits => some s
  | .done | .exited => none

/-- A run restarts at most once, and only in an iteration that looked healthy to it; while
it is polling it has not restarted. -/
structure RestartsOnce (restartKafkaService : Bool) (s : Main) : Prop where
  polling : s.status = .polling → s.restarts = []
  once : s.restarts.length ≤ 1
  called : ∀ q ∈ s.restarts, (iteration restartKafkaService q).CallsRestart

theorem restartsOnce_step {restartKafkaService : Bool} {s s' : Main} {q : Answers}
    (h : RestartsOnce restartKafkaService s) (hstep : step restartKafkaService s q = some s') :
    RestartsOnce restartKafkaService s' := by
  unfold step at hstep
  split at hstep
  case h_1 hpolling =>
      have hnone := h.polling hpolling
      split at hstep
      case h_1 message _ => cases hstep; exact ⟨nofun, h.once, h.called⟩
      case h_2 cmd hcall =>
          cases hstep
          refine ⟨nofun, by simp [hnone], ?_⟩
          simpa [hnone] using ⟨cmd, none, hcall⟩
      case h_3 cmd err hcall =>
          cases hstep
          refine ⟨nofun, by simp [hnone], ?_⟩
          simpa [hnone] using ⟨cmd, some err, hcall⟩
      case h_4 _ => cases hstep; exact h
      case h_5 _ => cases hstep; exact h
  case h_2 _ => cases hstep
  case h_3 _ => cases hstep

/-- **At most one restart**, over every run of the loop. -/
theorem restarts_reaches {restartKafkaService : Bool} {s : Main}
    (h : Reaches (step restartKafkaService) start s) : RestartsOnce restartKafkaService s := by
  obtain ⟨qs, hqs⟩ := h
  refine run_invariant (RestartsOnce restartKafkaService) ⟨fun _ => rfl, by simp [start], ?_⟩ ?_ hqs
  · simp [start]
  · exact fun t q t' ht ht' => restartsOnce_step ht ht'

/-! ## Healthy metrics -/

/-- All three queries complete, no key metric above zero, one controller. -/
def Healthy (q : Answers) : Prop :=
  ∃ urp isr acc, Complete q.urp urp ∧ Complete q.isr isr ∧ Complete q.acc acc ∧
    (∀ v ∈ samples urp, v = 0) ∧ (∀ v ∈ samples isr, v = 0) ∧ (samples acc).sum = 1

theorem not_warned_of_complete {r : Answer} {m : Matrix} (h : Complete r m) : ¬ Warned r := by
  rintro ⟨result, w, ws, hw⟩
  rw [Complete, hw] at h
  cases h

/-- A controller sum of one cannot come from a query that warned. -/
theorem LooksHealthy.acc_complete {q : Answers} {urp isr acc : Matrix}
    (h : LooksHealthy q urp isr acc) : Complete q.acc acc := by
  rcases promQueryRange_eq_none_iff.1 h.acc_seen with hc | ⟨-, rfl⟩
  · exact hc
  · have hone := h.acc_one
    simp [samples] at hone

theorem LooksHealthy.healthy {q : Answers} {urp isr acc : Matrix} (h : LooksHealthy q urp isr acc)
    (hurp : ¬ Warned q.urp) (hisr : ¬ Warned q.isr) : Healthy q := by
  have hcu : Complete q.urp urp :=
    (promQueryRange_eq_none_iff.1 h.urp_seen).resolve_right fun hw => hurp hw.1
  have hci : Complete q.isr isr :=
    (promQueryRange_eq_none_iff.1 h.isr_seen).resolve_right fun hw => hisr hw.1
  exact ⟨urp, isr, acc, hcu, hci, h.acc_complete, h.urp_zero, h.isr_zero, h.acc_one⟩

/-- The answer to a key query warned, or it is a matrix without a sample above zero. -/
def WarnedOrZero (r : Answer) : Prop := Warned r ∨ ∃ m, Complete r m ∧ ∀ v ∈ samples m, v = 0

/-- The answer to the controller query is a matrix whose samples sum up to one. -/
def OneController (r : Answer) : Prop := ∃ m, Complete r m ∧ (samples m).sum = 1

theorem warnedOrZero_iff {r : Answer} :
    WarnedOrZero r ↔ ∃ m, promQueryRange r = (m, none) ∧ ∀ v ∈ samples m, v = 0 := by
  simp only [promQueryRange_eq_none_iff]
  constructor
  · rintro (hw | ⟨m, hc, hzero⟩)
    · exact ⟨[], Or.inr ⟨hw, rfl⟩, by simp [samples]⟩
    · exact ⟨m, Or.inl hc, hzero⟩
  · rintro ⟨m, hc | ⟨hw, -⟩, hzero⟩
    · exact Or.inr ⟨m, hc, hzero⟩
    · exact Or.inl hw

/-- What looks healthy, in terms of the answers. -/
theorem looksHealthy_iff {q : Answers} :
    (∃ urp isr acc, LooksHealthy q urp isr acc) ↔
      WarnedOrZero q.urp ∧ WarnedOrZero q.isr ∧ OneController q.acc := by
  rw [warnedOrZero_iff, warnedOrZero_iff]
  constructor
  · rintro ⟨urp, isr, acc, h⟩
    exact ⟨⟨urp, h.urp_seen, h.urp_zero⟩, ⟨isr, h.isr_seen, h.isr_zero⟩,
      ⟨acc, h.acc_complete, h.acc_one⟩⟩
  · rintro ⟨⟨urp, hurp, hurp0⟩, ⟨isr, hisr, hisr0⟩, ⟨acc, hacc, hone⟩⟩
    exact ⟨urp, isr, acc, hurp, hisr, promQueryRange_eq_none_iff.2 (Or.inl hacc), hurp0, hisr0,
      hone⟩

/-- **Restart only on complete, healthy metrics**: an iteration keeps to this exactly unless
the flag is given, the controllers are complete and sum up to one, each of the two key metrics is
zero or came back with warnings, and one of them did come back with warnings. -/
theorem restarts_only_when_healthy_iff (restartKafkaService : Bool) (q : Answers) :
    ((iteration restartKafkaService q).CallsRestart → Healthy q) ↔
      ¬ (restartKafkaService = true ∧ WarnedOrZero q.urp ∧ WarnedOrZero q.isr ∧
        OneController q.acc ∧ (Warned q.urp ∨ Warned q.isr)) := by
  rw [callsRestart_iff]
  constructor
  · rintro honly ⟨hflag, hurp0, hisr0, hacc1, hwarned⟩
    obtain ⟨urp, isr, acc, hurp, hisr, -⟩ := honly ⟨hflag, looksHealthy_iff.2 ⟨hurp0, hisr0, hacc1⟩⟩
    rcases hwarned with hw | hw
    · exact not_warned_of_complete hurp hw
    · exact not_warned_of_complete hisr hw
  · rintro hno ⟨hflag, urp, isr, acc, hlooks⟩
    obtain ⟨hurp0, hisr0, hacc1⟩ := looksHealthy_iff.1 ⟨urp, isr, acc, hlooks⟩
    have hwarned : ¬ (Warned q.urp ∨ Warned q.isr) := fun hw =>
      hno ⟨hflag, hurp0, hisr0, hacc1, hw⟩
    rw [not_or] at hwarned
    exact hlooks.healthy hwarned.1 hwarned.2

/-- One controller, no in-sync-replica change, and an under-replicated-partition query that
only returned a warning. -/
def partialAnswers : Answers :=
  { urp := .ok (.matrix [[⟨0, 7⟩]], ["partial response"])
    isr := .ok (.matrix [], [])
    acc := .ok (.matrix [[⟨0, 1⟩]], [])
    restartErr := none }

/-- Kafka is restarted although seven partitions are under-replicated. -/
theorem restarts_on_partial_answer :
    (iteration true partialAnswers).CallsRestart ∧ ¬ Healthy partialAnswers := by
  refine ⟨by decide +kernel, ?_⟩
  rintro ⟨urp, isr, acc, hurp, -⟩
  exact not_warned_of_complete hurp ⟨_, _, _, rfl⟩

end KafkaRestarter
