import GoExperiments.Lib.Census
import GoExperiments.Lib.Runs

/-!
# Wait groups

Go's `sync.WaitGroup`, shared by calls of which each adds one, starts a task that ends with `Done`,
and waits.  Calls come at any time and take their steps in any order; `Add`, `Done` and `Wait` are
cut where they touch the state of the group.

A wait group may not be added to while waiters of the last round are on their way out, and the
implementation looks for that: an `Add` that finds waiters and a count of zero panics, so does a
waiter that finds the state changed when it comes out, and so does the last `Done` if it finds it
changed.  A task's panic ends the process.

* `step` — the steps; `Stepped` — everything one can do (`stepped_of_step`).
* `Orderly` — no `Add` while the last `Done` is between its count and its reset.
* `Inv`, `inv_step` — what holds if all steps are orderly: the count is that of the running tasks,
  no task panics, and a call that has returned has a task that has ended.
* `running_of_return` — calls return when no task is running.
* `all_out_of_stuck` — no wake-up is lost; `remaining_step` — and nothing goes on for ever.
* `Doomed`, `doomed_step` — an `Add` before the last `Done` has looked at the state again.
* `early_return` — an `Add` after it has looked.
-/

namespace WaitGroup

open Runs Census

/-! ## The group -/

/-- The state of a wait group: its count, the number of its waiters, the permits of its semaphore,
and whether a task has panicked. -/
structure Word where
  count : ℕ
  waiters : ℕ
  sema : ℕ
  crashed : Bool
  deriving DecidableEq

/-- Where a call is, behind `Add`: `woken` is behind the semaphore and before the last look at the
state. -/
inductive CallAt where
  | added
  | blocked
  | woken
  | returned
  | panicked
  deriving DecidableEq

/-- Where a task is: `last w` has counted down to zero and found `w` waiters, `checked w` has found
the state to be the same still, and `releasing k` has yet to give `k` permits. -/
inductive TaskAt where
  | absent
  | running
  | last (w : ℕ)
  | checked (w : ℕ)
  | releasing (k : ℕ)
  | ended
  deriving DecidableEq

/-- A call and its task. -/
structure Party where
  call : CallAt
  task : TaskAt
  deriving DecidableEq

structure Group where
  word : Word
  parties : List Party
  deriving DecidableEq

def Group.new : Group := ⟨⟨0, 0, 0, false⟩, []⟩

/-- A call comes; a call or a task takes its next step. -/
inductive Act where
  | add
  | call (i : ℕ)
  | task (i : ℕ)
  deriving DecidableEq

/-- `Add(1)`. -/
def add (w : Word) : Word × Party :=
  ({ w with count := w.count + 1 },
    if w.waiters ≠ 0 ∧ w.count = 0 then ⟨.panicked, .absent⟩ else ⟨.added, .running⟩)

/-- `Wait()`. -/
def callStep (w : Word) : CallAt → Option (Word × CallAt)
  | .added =>
      if w.count = 0 then some (w, .returned)
      else some ({ w with waiters := w.waiters + 1 }, .blocked)
  | .blocked => if w.sema = 0 then none else some ({ w with sema := w.sema - 1 }, .woken)
  | .woken => some (w, if w.count = 0 ∧ w.waiters = 0 then .returned else .panicked)
  | .returned | .panicked => none

/-- `Done()`.  A negative count is a panic. -/
def taskStep (w : Word) : TaskAt → Option (Word × TaskAt)
  | .running =>
      if w.count = 0 then some ({ w with crashed := true }, .running)
      else if w.count > 1 ∨ w.waiters = 0 then some ({ w with count := w.count - 1 }, .ended)
      else some ({ w with count := w.count - 1 }, .last w.waiters)
  | .last n =>
      if w.count = 0 ∧ w.waiters = n then some (w, .checked n)
      else some ({ w with crashed := true }, .last n)
  | .checked n => some ({ w with count := 0, waiters := 0 }, .releasing n)
  | .releasing (k + 1) => some ({ w with sema := w.sema + 1 }, .releasing k)
  | .releasing 0 => some (w, .ended)
  | .absent | .ended => none

/-- One step; there is none after a crash. -/
def step (g : Group) (a : Act) : Option Group :=
  if g.word.crashed then none
  else match a with
    | .add => some ⟨(add g.word).1, g.parties ++ [(add g.word).2]⟩
    | .call i =>
        match g.parties[i]? with
        | none => none
        | some p =>
            (callStep g.word p.call).map fun (w, c) => ⟨w, g.parties.set i { p with call := c }⟩
    | .task i =>
        match g.parties[i]? with
        | none => none
        | some p =>
            (taskStep g.word p.task).map fun (w, t) => ⟨w, g.parties.set i { p with task := t }⟩

/-! ## Everything a step can do -/

/-- The cases of `callStep`. -/
inductive Called (w : Word) : CallAt → Word → CallAt → Prop
  | passes (hcount : w.count = 0) : Called w .added w .returned
  | blocks (hcount : w.count ≠ 0) :
      Called w .added { w with waiters := w.waiters + 1 } .blocked
  | acquires (hsema : w.sema ≠ 0) : Called w .blocked { w with sema := w.sema - 1 } .woken
  | returns (hcount : w.count = 0) (hwaiters : w.waiters = 0) : Called w .woken w .returned
  | panics (hchanged : ¬ (w.count = 0 ∧ w.waiters = 0)) : Called w .woken w .panicked

/-- The cases of `taskStep`. -/
inductive Worked (w : Word) : TaskAt → Word → TaskAt → Prop
  | negative (hcount : w.count = 0) : Worked w .running { w with crashed := true } .running
  | ends (hcount : w.count ≠ 0) (hnone : w.count > 1 ∨ w.waiters = 0) :
      Worked w .running { w with count := w.count - 1 } .ended
  | last (hcount : w.count = 1) (hwaiters : w.waiters ≠ 0) :
      Worked w .running { w with count := 0 } (.last w.waiters)
  | checks (hcount : w.count = 0) : Worked w (.last w.waiters) w (.checked w.waiters)
  | changed (n : ℕ) (hchanged : ¬ (w.count = 0 ∧ w.waiters = n)) :
      Worked w (.last n) { w with crashed := true } (.last n)
  | resets (n : ℕ) : Worked w (.checked n) { w with count := 0, waiters := 0 } (.releasing n)
  | releases (k : ℕ) : Worked w (.releasing (k + 1)) { w with sema := w.sema + 1 } (.releasing k)
  | released : Worked w (.releasing 0) w .ended

theorem called_of_callStep {w w' : Word} {c c' : CallAt} (h : callStep w c = some (w', c')) :
    Called w c w' c' := by
  cases c with
  | added =>
      rw [callStep] at h
      split_ifs at h with hcount
      · cases h; exact .passes hcount
      · cases h; exact .blocks hcount
  | blocked =>
      rw [callStep] at h
      split_ifs at h with hsema
      cases h
      exact .acquires hsema
  | woken =>
      rw [callStep, Option.some.injEq, Prod.mk.injEq] at h
      obtain ⟨rfl, rfl⟩ := h
      split_ifs with hsame
      · exact .returns hsame.1 hsame.2
      · exact .panics hsame
  | returned => cases h
  | panicked => cases h

theorem worked_of_taskStep {w w' : Word} {t t' : TaskAt} (h : taskStep w t = some (w', t')) :
    Worked w t w' t' := by
  cases t with
  | absent => cases h
  | ended => cases h
  | checked n => cases h; exact .resets n
  | running =>
      rw [taskStep] at h
      split_ifs at h with hcount hnone
      · cases h; exact .negative hcount
      · cases h; exact .ends hcount hnone
      · rw [not_or] at hnone
        have hone : w.count = 1 := by omega
        rw [hone] at h
        cases h
        exact .last hone hnone.2
  | last n =>
      rw [taskStep] at h
      split_ifs at h with hsame
      · obtain ⟨hcount, rfl⟩ := hsame
        cases h
        exact .checks hcount
      · cases h; exact .changed n hsame
  | releasing k =>
      cases k with
      | zero => cases h; exact .released
      | succ k => cases h; exact .releases k

/-- The cases of `step`. -/
inductive Stepped (g : Group) : Act → Group → Prop
  | add : Stepped g .add ⟨(WaitGroup.add g.word).1, g.parties ++ [(WaitGroup.add g.word).2]⟩
  | call (i : ℕ) (p : Party) (w : Word) (c : CallAt) (hp : g.parties[i]? = some p)
      (hcalled : Called g.word p.call w c) :
      Stepped g (.call i) ⟨w, g.parties.set i { p with call := c }⟩
  | task (i : ℕ) (p : Party) (w : Word) (t : TaskAt) (hp : g.parties[i]? = some p)
      (hworked : Worked g.word p.task w t) :
      Stepped g (.task i) ⟨w, g.parties.set i { p with task := t }⟩

variable {g g' : Group} {a : Act}

theorem alive_of_step (h : step g a = some g') : g.word.crashed = false := by
  unfold step at h
  split_ifs at h with hcrashed
  exact Bool.not_eq_true _ ▸ hcrashed

/-- **Inversion.** -/
theorem stepped_of_step (h : step g a = some g') : Stepped g a g' := by
  have halive := alive_of_step h
  unfold step at h
  rw [if_neg (by rw [halive]; decide)] at h
  cases a with
  | add => cases h; exact .add
  | call i =>
      dsimp only at h
      split at h
      case h_1 => cases h
      case h_2 p hp =>
        obtain ⟨⟨w, c⟩, hcall, rfl⟩ := Option.map_eq_some_iff.1 h
        exact .call i p w c hp (called_of_callStep hcall)
  | task i =>
      dsimp only at h
      split at h
      case h_1 => cases h
      case h_2 p hp =>
        obtain ⟨⟨w, t⟩, htask, rfl⟩ := Option.map_eq_some_iff.1 h
        exact .task i p w t hp (worked_of_taskStep htask)

/-- Where the task of a party comes from: the party came just now, or its task took the step, or
the task is where it was. -/
theorem task_of_step {i : ℕ} {p : Party} (h : step g a = some g') (hp : g'.parties[i]? = some p) :
    (a = .add ∧ i = g.parties.length ∧ p = (add g.word).2) ∨ a = .task i ∨
      ∃ q, g.parties[i]? = some q ∧ q.task = p.task := by
  cases stepped_of_step h with
  | add =>
      rw [List.getElem?_append] at hp
      split_ifs at hp with hlt
      · exact .inr (.inr ⟨p, hp, rfl⟩)
      · rw [List.getElem?_singleton] at hp
        split_ifs at hp with hzero
        cases hp
        exact .inl ⟨rfl, by omega, rfl⟩
  | call j q w c hq hcalled =>
      by_cases hij : j = i
      · subst hij
        rw [getElem?_set_self_of_some hq, Option.some.injEq] at hp
        exact .inr (.inr ⟨q, hq, by rw [← hp]⟩)
      · rw [List.getElem?_set_ne hij] at hp
        exact .inr (.inr ⟨p, hp, rfl⟩)
  | task j q w t hq hworked =>
      by_cases hij : j = i
      · exact .inr (.inl (by rw [hij]))
      · rw [List.getElem?_set_ne hij] at hp
        exact .inr (.inr ⟨p, hp, rfl⟩)

theorem length_of_step (h : step g a = some g') :
    g'.parties.length = g.parties.length + if a = .add then 1 else 0 := by
  cases stepped_of_step h with
  | add => exact List.length_append
  | call i p w c hp hcalled => exact List.length_set
  | task i p w t hp hworked => exact List.length_set

theorem step_call {i : ℕ} {p : Party} {w : Word} {c : CallAt} (halive : g.word.crashed = false)
    (hp : g.parties[i]? = some p) (hcall : callStep g.word p.call = some (w, c)) :
    step g (.call i) = some ⟨w, g.parties.set i { p with call := c }⟩ := by
  rw [step, halive, if_neg (by decide)]
  dsimp only
  rw [hp]
  dsimp only
  rw [hcall]
  rfl

theorem step_task {i : ℕ} {p : Party} {w : Word} {t : TaskAt} (halive : g.word.crashed = false)
    (hp : g.parties[i]? = some p) (htask : taskStep g.word p.task = some (w, t)) :
    step g (.task i) = some ⟨w, g.parties.set i { p with task := t }⟩ := by
  rw [step, halive, if_neg (by decide)]
  dsimp only
  rw [hp]
  dsimp only
  rw [htask]
  rfl

/-! ## Orderly steps -/

namespace Party

def running (p : Party) : Bool := p.task = .running

def blocked (p : Party) : Bool := p.call = .blocked

/-- The task is between the count of its `Done` and the reset. -/
def closing (p : Party) : Bool :=
  match p.task with
  | .last _ | .checked _ => true
  | _ => false

/-- The permits that the task has yet to give. -/
def permits (p : Party) : ℕ :=
  match p.task with
  | .releasing k => k
  | _ => 0

end Party

/-- No `Add` while a task is closing. -/
def Orderly (g : Group) (a : Act) : Prop := a = .add → ∀ p ∈ g.parties, p.closing = false

instance (g : Group) (a : Act) : Decidable (Orderly g a) :=
  inferInstanceAs (Decidable (a = .add → ∀ p ∈ g.parties, p.closing = false))

/-- The invariant of orderly runs. -/
structure Inv (g : Group) : Prop where
  alive : g.word.crashed = false
  count : g.word.count = g.parties.countP Party.running
  one : g.parties.countP Party.closing ≤ 1
  closing : ∀ p ∈ g.parties, ∀ n, p.task = .last n ∨ p.task = .checked n →
    g.word.count = 0 ∧ g.word.waiters = n ∧ n ≠ 0
  waiters : g.word.waiters ≠ 0 → g.word.count ≠ 0 ∨ 0 < g.parties.countP Party.closing
  permits : g.parties.countP Party.blocked =
    g.word.waiters + g.word.sema + (g.parties.map Party.permits).sum
  returned : ∀ p ∈ g.parties, p.call = .returned → p.task ≠ .running

namespace Inv

theorem new : Inv Group.new :=
  ⟨rfl, rfl, Nat.zero_le 1, fun _ h => absurd h List.not_mem_nil, fun h => absurd rfl h, rfl,
    fun _ h => absurd h List.not_mem_nil⟩

/-- A closing task has seen a count of zero. -/
theorem count_of_closing (h : Inv g) (hpos : 0 < g.parties.countP Party.closing) :
    g.word.count = 0 := by
  obtain ⟨p, hp, hclosing⟩ := List.countP_pos_iff.1 hpos
  unfold Party.closing at hclosing
  split at hclosing
  case h_1 n htask => exact (h.closing p hp n (.inl htask)).1
  case h_2 n htask => exact (h.closing p hp n (.inr htask)).1
  case h_3 => cases hclosing

/-- While a task is running, none is closing. -/
theorem closing_of_count (h : Inv g) (hcount : g.word.count ≠ 0) :
    g.parties.countP Party.closing = 0 := by
  by_contra hne
  exact hcount (h.count_of_closing (Nat.pos_of_ne_zero hne))

theorem not_running (h : Inv g) (hcount : g.word.count = 0) {p : Party} (hp : p ∈ g.parties) :
    p.task ≠ .running := by
  intro htask
  have hnone := List.countP_eq_zero.1 (h.count.symm.trans hcount) p hp
  exact hnone (decide_eq_true htask)

end Inv

/-- Where no task is closing, `Add` does not panic. -/
theorem Inv.add_eq (h : Inv g) (hquiet : ∀ p ∈ g.parties, p.closing = false) :
    (add g.word).2 = ⟨.added, .running⟩ := by
  refine if_neg fun hpanic => ?_
  obtain hcount | hclosing := h.waiters hpanic.1
  · exact hcount hpanic.2
  · obtain ⟨p, hp, htrue⟩ := List.countP_pos_iff.1 hclosing
    rw [hquiet p hp] at htrue
    cases htrue

theorem inv_add (h : Inv g) (hquiet : ∀ p ∈ g.parties, p.closing = false) :
    Inv ⟨(add g.word).1, g.parties ++ [(add g.word).2]⟩ := by
  have hnone : g.parties.countP Party.closing = 0 :=
    List.countP_eq_zero.2 fun p hp => by rw [hquiet p hp]; decide
  have hword : (add g.word).1 = { g.word with count := g.word.count + 1 } := rfl
  rw [h.add_eq hquiet, hword]
  refine ⟨h.alive, ?_, ?_, ?_, fun _ => .inl (Nat.succ_ne_zero _), ?_, ?_⟩
  · rw [countP_concat, ← h.count]
    rfl
  · rw [countP_concat, hnone]
    decide
  · intro p hp n htask
    obtain hp | hp := List.mem_append.1 hp
    · have hclosing := hquiet p hp
      unfold Party.closing at hclosing
      obtain htask | htask := htask <;> rw [htask] at hclosing <;> cases hclosing
    · rw [List.mem_singleton.1 hp] at htask
      obtain htask | htask := htask <;> cases htask
  · rw [countP_concat, h.permits, List.map_append, List.sum_append]
    rfl
  · intro p hp hcall
    obtain hp | hp := List.mem_append.1 hp
    · exact h.returned p hp hcall
    · rw [List.mem_singleton.1 hp] at hcall
      cases hcall

/-- The step of a call leaves the tasks as they are. -/
theorem inv_call {i : ℕ} {p : Party} {w : Word} {c : CallAt} (h : Inv g)
    (hp : g.parties[i]? = some p) (hcalled : Called g.word p.call w c) :
    Inv ⟨w, g.parties.set i { p with call := c }⟩ := by
  obtain ⟨call, task⟩ := p
  have hmem := List.mem_of_getElem? hp
  have hrunning : (g.parties.set i ⟨c, task⟩).countP Party.running =
      g.parties.countP Party.running :=
    Nat.add_right_cancel (countP_set_add hp Party.running ⟨c, task⟩)
  have hclosing : (g.parties.set i ⟨c, task⟩).countP Party.closing =
      g.parties.countP Party.closing :=
    Nat.add_right_cancel (countP_set_add hp Party.closing ⟨c, task⟩)
  have hpermits : ((g.parties.set i ⟨c, task⟩).map Party.permits).sum =
      (g.parties.map Party.permits).sum :=
    Nat.add_right_cancel (sum_map_set_add hp Party.permits ⟨c, task⟩)
  have hblocked : (g.parties.set i ⟨c, task⟩).countP Party.blocked +
      (decide (call = .blocked)).toNat =
        g.parties.countP Party.blocked + (decide (c = .blocked)).toNat :=
    countP_set_add hp Party.blocked ⟨c, task⟩
  -- the count does not change, and calls return where it is zero
  have hword : w.crashed = false ∧ w.count = g.word.count ∧
      (w.waiters ≠ g.word.waiters → g.word.count ≠ 0) ∧ (c = .returned → g.word.count = 0) ∧
      w.waiters + w.sema + (decide (call = .blocked)).toNat =
        g.word.waiters + g.word.sema + (decide (c = .blocked)).toNat := by
    cases hcalled with
    | passes hcount => exact ⟨h.alive, rfl, fun hne => absurd rfl hne, fun _ => hcount, rfl⟩
    | blocks hcount =>
        refine ⟨h.alive, rfl, fun _ => hcount, fun hc => (by cases hc), ?_⟩
        simp only [reduceCtorEq, decide_true, decide_false, Bool.toNat_true, Bool.toNat_false]
        omega
    | acquires hsema =>
        refine ⟨h.alive, rfl, fun hne => absurd rfl hne, fun hc => (by cases hc), ?_⟩
        simp only [reduceCtorEq, decide_true, decide_false, Bool.toNat_true, Bool.toNat_false]
        omega
    | returns hcount _ => exact ⟨h.alive, rfl, fun hne => absurd rfl hne, fun _ => hcount, rfl⟩
    | panics _ => exact ⟨h.alive, rfl, fun hne => absurd rfl hne, fun hc => (by cases hc), rfl⟩
  obtain ⟨halive, hcount, hwaiters, hreturn, hpass⟩ := hword
  have hclosed : ∀ q ∈ g.parties, ∀ n, q.task = .last n ∨ q.task = .checked n →
      w.count = 0 ∧ w.waiters = n ∧ n ≠ 0 := by
    intro q hq n htask
    obtain ⟨hzero, hn, hne⟩ := h.closing q hq n htask
    refine ⟨hcount.trans hzero, ?_, hne⟩
    by_contra hne
    exact hwaiters (fun heq => hne (heq.trans hn)) hzero
  have hkeep := h.permits
  have hself := hclosed _ hmem
  have hback : c = .returned → task ≠ .running := fun hc => h.not_running (hreturn hc) hmem
  refine ⟨halive, ?_, ?_, forall_mem_set (b := ⟨c, task⟩) hclosed ?_ i, fun hne => ?_, ?_,
    forall_mem_set (b := ⟨c, task⟩) h.returned hback i⟩
  · exact hcount.trans (h.count.trans hrunning.symm)
  · exact hclosing ▸ h.one
  · exact hself
  · dsimp only
    rw [hcount, hclosing]
    by_cases hsame : w.waiters = g.word.waiters
    · exact h.waiters (hsame ▸ hne)
    · exact .inl (hwaiters hsame)
  · dsimp only
    omega

theorem not_closing_of_countP {l : List Party} (hl : l.countP Party.closing = 0) {p : Party}
    (hp : p ∈ l) (n : ℕ) : ¬ (p.task = .last n ∨ p.task = .checked n) := by
  have hnot := List.countP_eq_zero.1 hl p hp
  unfold Party.closing at hnot
  rintro (htask | htask) <;> exact hnot (by rw [htask])

/-- The step of a task leaves the calls as they are. -/
theorem inv_task {i : ℕ} {p : Party} {w : Word} {t : TaskAt} (h : Inv g)
    (hp : g.parties[i]? = some p) (hworked : Worked g.word p.task w t) :
    Inv ⟨w, g.parties.set i { p with task := t }⟩ := by
  obtain ⟨call, task⟩ := p
  have hmem := List.mem_of_getElem? hp
  have hblocked : (g.parties.set i ⟨call, t⟩).countP Party.blocked =
      g.parties.countP Party.blocked :=
    Nat.add_right_cancel (countP_set_add hp Party.blocked ⟨call, t⟩)
  have hrunning : (g.parties.set i ⟨call, t⟩).countP Party.running +
      (decide (task = .running)).toNat =
        g.parties.countP Party.running + (decide (t = .running)).toNat :=
    countP_set_add hp Party.running ⟨call, t⟩
  have hclosing := countP_set_add hp Party.closing ⟨call, t⟩
  have hpermits := sum_map_set_add hp Party.permits ⟨call, t⟩
  have hset : ∀ {P : Party → Prop}, (∀ q ∈ g.parties, P q) → P ⟨call, t⟩ →
      ∀ q ∈ g.parties.set i ⟨call, t⟩, P q := fun hall hnew => forall_mem_set hall hnew i
  have hcount := h.count
  have hone := h.one
  have hwait := h.waiters
  have hkeep := h.permits
  -- what has to be shown of the numbers, for each case
  have hinv : w.crashed = false → w.count = (g.parties.set i ⟨call, t⟩).countP Party.running →
      (g.parties.set i ⟨call, t⟩).countP Party.closing ≤ 1 →
      (∀ q ∈ g.parties.set i ⟨call, t⟩, ∀ n, q.task = .last n ∨ q.task = .checked n →
        w.count = 0 ∧ w.waiters = n ∧ n ≠ 0) →
      (w.waiters ≠ 0 → w.count ≠ 0 ∨ 0 < (g.parties.set i ⟨call, t⟩).countP Party.closing) →
      (g.parties.countP Party.blocked =
        w.waiters + w.sema + ((g.parties.set i ⟨call, t⟩).map Party.permits).sum) →
      t ≠ .running → Inv ⟨w, g.parties.set i ⟨call, t⟩⟩ :=
    fun h₁ h₂ h₃ h₄ h₅ h₆ h₇ => ⟨h₁, h₂, h₃, h₄, h₅, hblocked.trans h₆, hset h.returned fun _ => h₇⟩
  dsimp only at hworked ⊢
  generalize g.parties.set i ⟨call, t⟩ = l at *
  simp only [Party.closing, Party.permits] at hclosing hpermits
  cases hworked with
  | negative hzero => exact absurd rfl (h.not_running hzero hmem)
  | changed n hchanged =>
      obtain ⟨hzero, hn, -⟩ := h.closing _ hmem n (.inl rfl)
      exact absurd ⟨hzero, hn⟩ hchanged
  | ends hne hnone =>
      have hnot := h.closing_of_count hne
      simp only [reduceCtorEq, decide_true, decide_false, Bool.toNat_true, Bool.toNat_false]
        at hrunning hclosing hpermits
      dsimp only at hinv
      have hnone' : l.countP Party.closing = 0 := by omega
      exact hinv h.alive (by omega) (by omega)
        (fun q hq n htask => absurd htask (not_closing_of_countP hnone' hq n)) (by omega) (by omega)
        nofun
  | last hcount₁ hwaiters =>
      have hnot := h.closing_of_count (by omega)
      simp only [reduceCtorEq, decide_true, decide_false, Bool.toNat_true, Bool.toNat_false]
        at hrunning hclosing hpermits
      dsimp only at hinv
      refine hinv h.alive (by omega) (by omega) (hset (fun q hq n htask => ?_) fun n htask => ?_)
        (by omega) (by omega) nofun
      · exact absurd htask (not_closing_of_countP hnot hq n)
      · obtain htask | htask := htask <;> cases htask
        exact ⟨rfl, rfl, hwaiters⟩
  | checks hzero =>
      simp only [reduceCtorEq, decide_false, Bool.toNat_true, Bool.toNat_false]
        at hrunning hclosing hpermits
      refine hinv h.alive (by omega) (by omega) (hset h.closing fun n htask => ?_) (by omega)
        (by omega) nofun
      obtain htask | htask := htask <;> cases htask
      exact h.closing _ hmem _ (.inl rfl)
  | resets n =>
      obtain ⟨hzero, hn, -⟩ := h.closing _ hmem n (.inr rfl)
      simp only [reduceCtorEq, decide_false, Bool.toNat_true, Bool.toNat_false]
        at hrunning hclosing hpermits
      dsimp only at hinv
      have hnone' : l.countP Party.closing = 0 := by omega
      exact hinv h.alive (by omega) (by omega)
        (fun q hq n htask => absurd htask (not_closing_of_countP hnone' hq n))
        (fun hw => absurd rfl hw) (by omega) nofun
  | releases k =>
      simp only [reduceCtorEq, decide_false, Bool.toNat_false] at hrunning hclosing hpermits
      dsimp only at hinv
      exact hinv h.alive (by omega) (by omega) (hset h.closing nofun) (by omega) (by omega) nofun
  | released =>
      simp only [reduceCtorEq, decide_false, Bool.toNat_false] at hrunning hclosing hpermits
      exact hinv h.alive (by omega) (by omega) (hset h.closing nofun) (by omega) (by omega) nofun

/-- **Orderly steps keep the invariant.** -/
theorem inv_step (h : Inv g) (horderly : Orderly g a) (hstep : step g a = some g') : Inv g' := by
  cases stepped_of_step hstep with
  | add => exact inv_add h (horderly rfl)
  | call i p w c hp hcalled => exact inv_call h hp hcalled
  | task i p w t hp hworked => exact inv_task h hp hworked

theorem Called.count_eq {w w' : Word} {c : CallAt} (h : Called w c w' .returned) : w.count = 0 := by
  cases h with
  | passes hcount => exact hcount
  | returns hcount _ => exact hcount

theorem Called.count_same {w w' : Word} {c c' : CallAt} (h : Called w c w' c') :
    w'.count = w.count := by
  cases h <;> rfl

/-- **Calls return when no task is running.** -/
theorem running_of_return {i : ℕ} {p p' : Party} (h : Inv g) (hstep : step g a = some g')
    (hp : g.parties[i]? = some p) (hp' : g'.parties[i]? = some p') (hout : p.call ≠ .returned)
    (hback : p'.call = .returned) : ∀ q ∈ g.parties, q.task ≠ .running := by
  cases stepped_of_step hstep with
  | add =>
      rw [getElem?_concat_of_some hp, Option.some.injEq] at hp'
      exact absurd (hp' ▸ hback) hout
  | task j q w t hq hworked =>
      by_cases hij : j = i
      · subst hij
        rw [hq, Option.some.injEq] at hp
        rw [getElem?_set_self_of_some hq, Option.some.injEq] at hp'
        rw [← hp'] at hback
        exact absurd (hp ▸ hback) hout
      · rw [List.getElem?_set_ne hij, hp, Option.some.injEq] at hp'
        exact absurd (hp' ▸ hback) hout
  | call j q w c hq hcalled =>
      by_cases hij : j = i
      · subst hij
        rw [hq, Option.some.injEq] at hp
        subst hp
        rw [getElem?_set_self_of_some hq, Option.some.injEq] at hp'
        have hc : c = .returned := by rw [← hp'] at hback; exact hback
        rw [hc] at hcalled
        exact fun r hr => h.not_running hcalled.count_eq hr
      · rw [List.getElem?_set_ne hij, hp, Option.some.injEq] at hp'
        exact absurd (hp' ▸ hback) hout

/-- **No wake-up is lost.**  Where neither a call nor a task can take a step, all calls have
returned or panicked. -/
theorem all_out_of_stuck (h : Inv g) (hcalls : ∀ i, step g (.call i) = none)
    (htasks : ∀ i, step g (.task i) = none) :
    ∀ p ∈ g.parties, p.call = .returned ∨ p.call = .panicked := by
  have hcall : ∀ p ∈ g.parties, callStep g.word p.call = none := by
    intro p hp
    obtain ⟨i, hi⟩ := List.getElem?_of_mem hp
    have hnone := hcalls i
    rw [step, h.alive, if_neg (by decide)] at hnone
    dsimp only at hnone
    rw [hi] at hnone
    exact Option.map_eq_none_iff.1 hnone
  have htask : ∀ p ∈ g.parties, p.task = .absent ∨ p.task = .ended := by
    intro p hp
    obtain ⟨i, hi⟩ := List.getElem?_of_mem hp
    have hnone := htasks i
    rw [step, h.alive, if_neg (by decide)] at hnone
    dsimp only at hnone
    rw [hi, Option.map_eq_none_iff] at hnone
    cases ht : p.task with
    | absent => exact .inl rfl
    | ended => exact .inr rfl
    | checked n => rw [ht] at hnone; cases hnone
    | releasing k => rw [ht] at hnone; cases k <;> cases hnone
    | running => rw [ht, taskStep] at hnone; split_ifs at hnone
    | last n => rw [ht, taskStep] at hnone; split_ifs at hnone
  -- nothing is on its way
  have hrunning : g.parties.countP Party.running = 0 := by
    refine List.countP_eq_zero.2 fun p hp => ?_
    obtain ht | ht := htask p hp <;> simp [Party.running, ht]
  have hclosing : g.parties.countP Party.closing = 0 := by
    refine List.countP_eq_zero.2 fun p hp => ?_
    obtain ht | ht := htask p hp <;> simp [Party.closing, ht]
  have hpermits : (g.parties.map Party.permits).sum = 0 := by
    refine List.sum_eq_zero_iff_forall_eq_nat.2 fun n hn => ?_
    obtain ⟨p, hp, rfl⟩ := List.mem_map.1 hn
    obtain ht | ht := htask p hp <;> simp [Party.permits, ht]
  have hcount := h.count
  have hwaiters := h.waiters
  have hsum := h.permits
  intro p hp
  have hnone := hcall p hp
  cases hc : p.call with
  | returned => exact .inl rfl
  | panicked => exact .inr rfl
  | added => rw [hc, callStep] at hnone; split_ifs at hnone
  | woken => rw [hc] at hnone; cases hnone
  | blocked =>
      rw [hc, callStep] at hnone
      split_ifs at hnone with hsema
      have hpos : 0 < g.parties.countP Party.blocked :=
        List.countP_pos_iff.2 ⟨p, hp, decide_eq_true hc⟩
      omega

/-! ## How long it takes -/

/-- The steps a call has before it, at most. -/
def CallAt.rank : CallAt → ℕ
  | .added => 3
  | .blocked => 2
  | .woken => 1
  | .returned | .panicked => 0

/-- The steps a task has before it, at most, where there are no more than `m` waiters. -/
def TaskAt.rank (m : ℕ) : TaskAt → ℕ
  | .running => m + 4
  | .last n => n + 3
  | .checked n => n + 2
  | .releasing k => k + 1
  | .absent | .ended => 0

/-- The steps that calls and tasks have before them. -/
def Group.remaining (g : Group) : ℕ :=
  (g.parties.map fun p => p.call.rank + p.task.rank g.parties.length).sum

theorem Called.rank_lt {w w' : Word} {c c' : CallAt} (h : Called w c w' c') : c'.rank < c.rank := by
  cases h <;> decide

/-- Waiters are blocked calls. -/
theorem Inv.waiters_le (h : Inv g) : g.word.waiters ≤ g.parties.length := by
  have hpermits := h.permits
  have hle := g.parties.countP_le_length (p := Party.blocked)
  omega

theorem Worked.rank_lt {w w' : Word} {t t' : TaskAt} {m : ℕ} (h : Worked w t w' t')
    (hm : w.waiters ≤ m) (halive : w'.crashed = false) : t'.rank m < t.rank m := by
  cases h with
  | negative hcount => cases halive
  | changed n hchanged => cases halive
  | ends hcount hnone => exact Nat.succ_pos _
  | last hcount hwaiters => exact Nat.lt_succ_of_le (Nat.add_le_add_right hm 3)
  | checks hcount => exact Nat.lt_succ_self _
  | resets n => exact Nat.lt_succ_self _
  | releases k => exact Nat.lt_succ_self _
  | released => exact Nat.succ_pos _

/-- **Every step of a call or a task is one less.** -/
theorem remaining_step (h : Inv g) (hnot : a ≠ .add) (hstep : step g a = some g') :
    g'.remaining < g.remaining := by
  have h' := inv_step h (fun hadd => absurd hadd hnot) hstep
  unfold Group.remaining
  cases stepped_of_step hstep with
  | add => exact absurd rfl hnot
  | call i p w c hp hcalled =>
      have hset := sum_map_set_add hp (fun p => p.call.rank + p.task.rank g.parties.length)
        { p with call := c }
      have hlt := hcalled.rank_lt
      dsimp only at hset ⊢
      rw [List.length_set]
      omega
  | task i p w t hp hworked =>
      have hset := sum_map_set_add hp (fun p => p.call.rank + p.task.rank g.parties.length)
        { p with task := t }
      have hlt := hworked.rank_lt h.waiters_le h'.alive
      dsimp only at hset ⊢
      rw [List.length_set]
      omega

/-! ## An `Add` before the last look -/

/-- The last `Done` of the task `i` will find the state changed: the count is one more than there
are tasks to count it down, and no task is about to reset it. -/
structure Doomed (i : ℕ) (g : Group) : Prop where
  count : g.parties.countP Party.running < g.word.count
  none_checked : ∀ p ∈ g.parties, ∀ n, p.task ≠ .checked n
  last : ∃ p n, g.parties[i]? = some p ∧ p.task = .last n

/-- **An `Add` while the task `i` has not looked again.** -/
theorem doomed_add {i n : ℕ} {p : Party} (h : Inv g) (hp : g.parties[i]? = some p)
    (htask : p.task = .last n) (hstep : step g .add = some g') : Doomed i g' := by
  have hmem := List.mem_of_getElem? hp
  have hclosing : p.closing = true := by rw [Party.closing, htask]
  obtain ⟨hzero, hn, hne⟩ := h.closing p hmem n (.inl htask)
  have hcount := h.count
  cases stepped_of_step hstep with
  | add =>
      -- the waiters are there, so that `Add` panics and starts no task
      have hparty : (add g.word).2 = ⟨.panicked, .absent⟩ := if_pos ⟨hn ▸ hne, hzero⟩
      rw [hparty]
      refine ⟨?_, forall_mem_concat (fun q hq m hm => ?_) nofun, p, n,
        getElem?_concat_of_some hp _, htask⟩
      · show (g.parties ++ [(⟨.panicked, .absent⟩ : Party)]).countP Party.running < g.word.count + 1
        have hconcat := countP_concat Party.running g.parties ⟨.panicked, .absent⟩
        simp only [Party.running, reduceCtorEq, decide_false, Bool.toNat_false] at hconcat
        omega
      · -- only one task is closing
        obtain ⟨j, hj⟩ := List.getElem?_of_mem hq
        have hqclosing : q.closing = true := by rw [Party.closing, hm]
        obtain rfl := index_unique h.one hp hclosing hj hqclosing
        rw [hp, Option.some.injEq] at hj
        rw [hj, hm] at htask
        cases htask

/-- **Nothing helps**: whatever is done then, the task `i` cannot get past its last look; when it
takes its step, the process ends. -/
theorem doomed_step {i : ℕ} (h : Doomed i g) (hstep : step g a = some g') :
    g'.word.crashed = true ∨ Doomed i g' := by
  obtain ⟨hcount, hnone, p, n, hp, htask⟩ := h
  cases stepped_of_step hstep with
  | add =>
      have hparty : (add g.word).2 = ⟨.added, .running⟩ := if_neg fun hpanic => by omega
      rw [hparty]
      refine .inr ⟨?_, forall_mem_concat hnone nofun, p, n, getElem?_concat_of_some hp _, htask⟩
      show (g.parties ++ [(⟨.added, .running⟩ : Party)]).countP Party.running < g.word.count + 1
      have hconcat := countP_concat Party.running g.parties ⟨.added, .running⟩
      simp only [Party.running, decide_true, Bool.toNat_true] at hconcat
      omega
  | call j q w c hq hcalled =>
      have hrunning : (g.parties.set j { q with call := c }).countP Party.running =
          g.parties.countP Party.running :=
        Nat.add_right_cancel (countP_set_add hq Party.running { q with call := c })
      have hword := hcalled.count_same
      have hself := hnone q (List.mem_of_getElem? hq)
      refine .inr ⟨?_, forall_mem_set (b := ⟨c, q.task⟩) hnone hself j, ?_⟩
      · dsimp only
        omega
      · by_cases hij : j = i
        · subst hij
          rw [hp, Option.some.injEq] at hq
          subst hq
          exact ⟨_, n, getElem?_set_self_of_some hp _, htask⟩
        · exact ⟨p, n, (List.getElem?_set_ne hij).trans hp, htask⟩
  | task j q w t hq hworked =>
      obtain ⟨call, task⟩ := q
      have hqmem := List.mem_of_getElem? hq
      have hrunning : (g.parties.set j ⟨call, t⟩).countP Party.running +
          (decide (task = .running)).toNat =
            g.parties.countP Party.running + (decide (t = .running)).toNat :=
        countP_set_add hq Party.running ⟨call, t⟩
      have hothers : j ≠ i → ∃ p n, (g.parties.set j ⟨call, t⟩)[i]? = some p ∧ p.task = .last n :=
        fun hij => ⟨p, n, (List.getElem?_set_ne hij).trans hp, htask⟩
      have hne : task ≠ .last n → j ≠ i := by
        rintro hne rfl
        rw [hp, Option.some.injEq] at hq
        rw [hq] at htask
        exact hne htask
      dsimp only at hworked ⊢
      cases hworked with
      | negative hzero => omega
      | ends _ _ =>
          simp only [reduceCtorEq, decide_true, decide_false, Bool.toNat_true, Bool.toNat_false]
            at hrunning
          refine .inr ⟨?_, forall_mem_set (b := ⟨call, .ended⟩) hnone nofun j, hothers (hne nofun)⟩
          dsimp only
          omega
      | last hone _ =>
          have hpos : 0 < g.parties.countP Party.running :=
            List.countP_pos_iff.2 ⟨_, hqmem, decide_eq_true rfl⟩
          omega
      | checks hzero => omega
      | changed m hchanged => exact .inl rfl
      | resets m => exact absurd rfl (hnone _ hqmem m)
      | releases k =>
          simp only [reduceCtorEq, decide_false, Bool.toNat_false] at hrunning
          exact .inr ⟨Nat.lt_of_le_of_lt (Nat.le_of_eq hrunning) hcount,
            forall_mem_set (b := ⟨call, .releasing k⟩) hnone nofun j, hothers (hne nofun)⟩
      | released =>
          simp only [reduceCtorEq, decide_false, Bool.toNat_false] at hrunning
          exact .inr ⟨Nat.lt_of_le_of_lt (Nat.le_of_eq hrunning) hcount,
            forall_mem_set (b := ⟨call, .ended⟩) hnone nofun j, hothers (hne nofun)⟩

/-- The next step of a doomed task ends the process. -/
theorem doomed_task {i : ℕ} (h : Doomed i g) (halive : g.word.crashed = false) :
    ∃ g', step g (.task i) = some g' ∧ g'.word.crashed = true := by
  obtain ⟨hcount, -, p, n, hp, htask⟩ := h
  have hchanged : taskStep g.word p.task = some ({ g.word with crashed := true }, .last n) := by
    rw [htask]
    exact if_neg fun hsame => by omega
  exact ⟨_, step_task halive hp hchanged, rfl⟩

/-! ## `Add`s after the last look -/

/-- The steps by which a call returns before its task has ended: the task `i` has looked at the
state for the last time; two `Add`s come, of which the first panics and the second finds its one
still in the count; and the call of the second gets the permit of a waiter of the last round. -/
def overtaking (i k : ℕ) : List Act :=
  [.add, .add, .call (k + 1), .task i, .task i, .call (k + 1), .call (k + 1)]

/-- The last of two calls that came takes a step. -/
theorem step_call_second {l : List Party} {k : ℕ} {q : Party} {w w' : Word} {c c' : CallAt}
    {t : TaskAt} (hk : l.length = k) (halive : w.crashed = false)
    (hcall : callStep w c = some (w', c')) :
    step ⟨w, l ++ [q, ⟨c, t⟩]⟩ (.call (k + 1)) = some ⟨w', l ++ [q, ⟨c', t⟩]⟩ := by
  have hget : (l ++ [q, ⟨c, t⟩])[k + 1]? = some ⟨c, t⟩ := by simp [← hk]
  have hset : (l ++ [q, ⟨c, t⟩]).set (k + 1) ⟨c', t⟩ = l ++ [q, ⟨c', t⟩] := by simp [← hk]
  rw [step_call (g := ⟨w, l ++ [q, ⟨c, t⟩]⟩) halive hget hcall, hset]

/-- A task of one that came before takes a step. -/
theorem step_task_before {l : List Party} {i : ℕ} {p : Party} {w w' : Word} {t : TaskAt}
    (post : List Party) (hp : l[i]? = some p) (halive : w.crashed = false)
    (htask : taskStep w p.task = some (w', t)) :
    step ⟨w, l ++ post⟩ (.task i) = some ⟨w', l.set i { p with task := t } ++ post⟩ := by
  obtain ⟨hi, -⟩ := List.getElem?_eq_some_iff.1 hp
  have hget : (l ++ post)[i]? = some p := (List.getElem?_append_left hi).trans hp
  rw [step_task (g := ⟨w, l ++ post⟩) halive hget htask, List.set_append_left i _ hi]

/-- **A call returns while its task is running**, and nothing has been noticed. -/
theorem early_return {i n : ℕ} {p : Party} (h : Inv g) (hp : g.parties[i]? = some p)
    (htask : p.task = .checked n) :
    ∃ t, run step g (overtaking i g.parties.length) = some t ∧ t.word.crashed = false ∧
      t.word.count = 0 ∧ t.parties[g.parties.length + 1]? = some ⟨.returned, .running⟩ := by
  obtain ⟨hzero, hn, hne⟩ := h.closing p (List.mem_of_getElem? hp) n (.inr htask)
  obtain ⟨m, rfl⟩ : ∃ m, n = m + 1 := ⟨n - 1, by omega⟩
  obtain ⟨⟨count, waiters, sema, crashed⟩, l⟩ := g
  have halive : crashed = false := h.alive
  dsimp only at hzero hn hp
  subst hzero hn halive
  -- the parties: those of before, the call that panics, and the one that overtakes
  have hadds : run step ⟨⟨0, m + 1, sema, false⟩, l⟩ [.add, .add] =
      some ⟨⟨2, m + 1, sema, false⟩, l ++ [⟨.panicked, .absent⟩, ⟨.added, .running⟩]⟩ := by
    have hlist : l ++ [(⟨.panicked, .absent⟩ : Party)] ++ [⟨.added, .running⟩] =
      l ++ [⟨.panicked, .absent⟩, ⟨.added, .running⟩] := List.append_assoc _ _ _
    rw [← hlist]
    rfl
  have hreset := step_task_before [⟨.panicked, .absent⟩, ⟨.blocked, .running⟩]
    (w := ⟨2, m + 2, sema, false⟩) hp rfl (by rw [htask]; rfl)
  have hp' := getElem?_set_self_of_some hp { p with task := .releasing (m + 1) }
  have hrelease := step_task_before [⟨.panicked, .absent⟩, ⟨.blocked, .running⟩]
    (w := ⟨0, 0, sema, false⟩) hp' rfl rfl
  rw [List.set_set] at hrelease
  refine ⟨⟨⟨0, 0, sema, false⟩, (l.set i { p with task := .releasing m }) ++
    [⟨.panicked, .absent⟩, ⟨.returned, .running⟩]⟩, ?_, rfl, rfl, by simp⟩
  refine run_append_eq_some.2 ⟨_, hadds, ?_⟩
  rw [run_cons, step_call_second rfl rfl rfl, Option.bind_some, run_cons, hreset, Option.bind_some,
    run_cons, hrelease, Option.bind_some, run_cons,
    step_call_second List.length_set rfl rfl, Option.bind_some, run_cons,
    step_call_second List.length_set rfl rfl]
  rfl

end WaitGroup
