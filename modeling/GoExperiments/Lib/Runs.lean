import Mathlib.Data.List.Induction

/-!
# Runs of a partial step function

A system is given by `step : S → A → Option S`: the state after an action, and
`none` when the action is not enabled.  This file says what a run of actions is
and gives the three rules every safety proof of this project goes through.

* `run` — the state after a list of actions; `run_append` and `run_concat` cut a
  run at any point.
* `Always P s as` — `P` holds in every state the run `as` from `s` passes
  through; `EachStep G s as` — every step taken along it meets the guard `G`.
  Both can be checked on a given run (`checkAlways`, `checkEachStep`).  `Offered G s as` — every
  action, enabled or not, meets `G` when its turn comes.
* `run_invariant` — what every step preserves holds after every run.
* `always_of_eachStep` — the same for an invariant only kept by steps that meet
  a guard.
* `always_iff_eachStep` — if a step from a good state leads to a good state
  *exactly* when it meets the guard, then a run stays good exactly when all of
  its steps do.
* `StaysWhile Has Live s as` — whatever has once come to hold stays as long as it is
  live; `staysWhile_iff` says this of each step alone.
* `Reaches` — some run leads from one state to another.
* `run_length_le` — a measure that every step lowers bounds the length of all
  runs; `exists_stuck` — and then one of them ends where no action is enabled.
-/

namespace Runs

variable {S A : Type*}

/-- The state after a list of actions, and `none` as soon as one of them is not
enabled. -/
def run (step : S → A → Option S) (s : S) : List A → Option S
  | [] => some s
  | a :: as => (step s a).bind fun s' => run step s' as

variable {step : S → A → Option S}

@[simp] theorem run_nil (s : S) : run step s [] = some s := rfl

theorem run_cons (s : S) (a : A) (as : List A) :
    run step s (a :: as) = (step s a).bind fun s' => run step s' as := rfl

/-- A run may be cut at any point. -/
theorem run_append (s : S) (as bs : List A) :
    run step s (as ++ bs) = (run step s as).bind fun s' => run step s' bs := by
  induction as generalizing s with
  | nil => rfl
  | cons a as ih =>
      rw [List.cons_append, run_cons, run_cons, Option.bind_assoc]
      refine congrArg _ (funext fun s' => ?_)
      exact ih s'

/-- The last step of a run. -/
theorem run_concat (s : S) (as : List A) (a : A) :
    run step s (as ++ [a]) = (run step s as).bind fun s' => step s' a := by
  rw [run_append]
  refine congrArg _ (funext fun s' => ?_)
  rw [run_cons]
  cases step s' a <;> rfl

theorem run_concat_eq_some {s t : S} {as : List A} {a : A} :
    run step s (as ++ [a]) = some t ↔ ∃ s', run step s as = some s' ∧ step s' a = some t := by
  rw [run_concat, Option.bind_eq_some_iff]

theorem run_append_eq_some {s t : S} {as bs : List A} :
    run step s (as ++ bs) = some t ↔
      ∃ s', run step s as = some s' ∧ run step s' bs = some t := by
  rw [run_append, Option.bind_eq_some_iff]

/-- **The invariant rule.**  What holds at the start and is kept by every step
holds after every run. -/
theorem run_invariant (Inv : S → Prop) {s t : S} {as : List A} (h0 : Inv s)
    (hstep : ∀ s a s', Inv s → step s a = some s' → Inv s') (h : run step s as = some t) :
    Inv t := by
  induction as generalizing s with
  | nil => cases h; exact h0
  | cons a as ih =>
      rw [run_cons, Option.bind_eq_some_iff] at h
      obtain ⟨s', hs', ht⟩ := h
      exact ih (hstep s a s' h0 hs') ht

/-! ## Runs under a guard -/

/-- `P` holds in every state the run passes through, the first and the last
included. -/
def Always (step : S → A → Option S) (P : S → Prop) (s : S) (as : List A) : Prop :=
  ∀ pre post t, as = pre ++ post → run step s pre = some t → P t

/-- Every step taken along the run meets the guard `G`, which looks at the state
before the step and at the action. -/
def EachStep (step : S → A → Option S) (G : S → A → Prop) (s : S) (as : List A) : Prop :=
  ∀ pre a post t t', as = pre ++ a :: post → run step s pre = some t → step t a = some t' → G t a

/-- Every action offered along the run meets `G` when its turn comes.  Unlike
`EachStep` this also speaks of an action that turns out not to be enabled. -/
def Offered (step : S → A → Option S) (G : S → A → Prop) (s : S) (as : List A) : Prop :=
  ∀ pre a post t, as = pre ++ a :: post → run step s pre = some t → G t a

theorem offered_cons {G : S → A → Prop} {s : S} {a : A} {as : List A} :
    Offered step G s (a :: as) ↔ G s a ∧ ∀ s', step s a = some s' → Offered step G s' as := by
  constructor
  · intro h
    refine ⟨h [] a as s rfl rfl, fun s' hs' pre b post t hsplit hrun => ?_⟩
    refine h (a :: pre) b post t (by rw [hsplit]; rfl) ?_
    rw [run_cons, hs']
    exact hrun
  · rintro ⟨ha, h⟩ pre b post t hsplit hrun
    cases pre with
    | nil =>
        obtain ⟨rfl, rfl⟩ := List.cons.inj hsplit
        cases hrun
        exact ha
    | cons c pre =>
        obtain ⟨rfl, hrest⟩ := List.cons.inj hsplit
        rw [run_cons, Option.bind_eq_some_iff] at hrun
        obtain ⟨s', hs', hrun'⟩ := hrun
        exact h s' hs' pre b post t hrest hrun'

theorem offered_nil (G : S → A → Prop) (s : S) : Offered step G s [] :=
  fun pre a post t hsplit _ => absurd hsplit (by simp)

theorem offered_left {G : S → A → Prop} {s : S} {as bs : List A}
    (h : Offered step G s (as ++ bs)) : Offered step G s as := by
  intro pre a post t hsplit hrun
  refine h pre a (post ++ bs) t ?_ hrun
  rw [hsplit, List.append_assoc]
  rfl

theorem offered_concat {G : S → A → Prop} {s : S} {a : A} {as : List A} :
    Offered step G s (as ++ [a]) ↔
      Offered step G s as ∧ ∀ t, run step s as = some t → G t a := by
  refine ⟨fun h => ⟨offered_left h, fun t hrun => h as a [] t rfl hrun⟩, ?_⟩
  rintro ⟨h, ha⟩ pre b post t hsplit hrun
  obtain rfl | ⟨post, c, rfl⟩ := List.eq_nil_or_concat post
  · obtain ⟨rfl, heq⟩ := List.append_inj' hsplit rfl
    cases heq
    exact ha t hrun
  · rw [List.concat_eq_append, ← List.cons_append, ← List.append_assoc] at hsplit
    exact h pre b post t (List.append_inj' hsplit rfl).1 hrun
theorem always_final {P : S → Prop} {s t : S} {as : List A} (h : Always step P s as)
    (hrun : run step s as = some t) : P t :=
  h as [] t (List.append_nil as).symm hrun

theorem eachStep_nil (G : S → A → Prop) (s : S) : EachStep step G s [] :=
  fun pre a post t _ hsplit _ _ => absurd hsplit (by simp)

theorem eachStep_cons {G : S → A → Prop} {s : S} {a : A} {as : List A} :
    EachStep step G s (a :: as) ↔
      ∀ s', step s a = some s' → G s a ∧ EachStep step G s' as := by
  constructor
  · intro h s' hs'
    refine ⟨h [] a as s s' rfl rfl hs', fun pre b post t t' hsplit hrun ht => ?_⟩
    refine h (a :: pre) b post t t' (by rw [hsplit]; rfl) ?_ ht
    rw [run_cons, hs']
    exact hrun
  · intro h pre b post t t' hsplit hrun ht
    cases pre with
    | nil =>
        obtain ⟨rfl, rfl⟩ := List.cons.inj hsplit
        cases hrun
        exact (h t' ht).1
    | cons c pre =>
        obtain ⟨rfl, hrest⟩ := List.cons.inj hsplit
        rw [run_cons, Option.bind_eq_some_iff] at hrun
        obtain ⟨s', hs', hrun'⟩ := hrun
        exact (h s' hs').2 pre b post t t' hrest hrun' ht

theorem eachStep_append {G : S → A → Prop} {s : S} {as bs : List A} :
    EachStep step G s (as ++ bs) ↔
      EachStep step G s as ∧ ∀ t, run step s as = some t → EachStep step G t bs := by
  induction as generalizing s with
  | nil => simp [eachStep_nil]
  | cons a as ih =>
      rw [List.cons_append, eachStep_cons, eachStep_cons, run_cons]
      cases step s a with
      | none => simp
      | some s' => simp [ih, and_assoc]

/-- Actions that meet the guard in every state. -/
theorem eachStep_of_forall {G : S → A → Prop} {s : S} {as : List A}
    (h : ∀ a ∈ as, ∀ t, G t a) : EachStep step G s as := by
  intro pre a post t _ hsplit _ _
  refine h a ?_ t
  rw [hsplit]
  exact List.mem_append_right _ (List.mem_cons_self ..)

theorem always_cons {P : S → Prop} {s : S} {a : A} {as : List A} :
    Always step P s (a :: as) ↔ P s ∧ ∀ s', step s a = some s' → Always step P s' as := by
  constructor
  · intro h
    refine ⟨h [] (a :: as) s rfl rfl, fun s' hs' pre post t hsplit hrun => ?_⟩
    refine h (a :: pre) post t (by rw [hsplit]; rfl) ?_
    rw [run_cons, hs']
    exact hrun
  · rintro ⟨hs, h⟩ pre post t hsplit hrun
    cases pre with
    | nil => cases hrun; exact hs
    | cons b pre =>
        obtain ⟨rfl, hrest⟩ := List.cons.inj hsplit
        rw [run_cons, Option.bind_eq_some_iff] at hrun
        obtain ⟨s', hs', hrun'⟩ := hrun
        exact h s' hs' pre post t hrest hrun'

/-- The states of a run, checked one after the other. -/
def checkAlways (step : S → A → Option S) (P : S → Prop) [DecidablePred P] (s : S) :
    List A → Bool
  | [] => decide (P s)
  | a :: as => decide (P s) && match step s a with
      | none => true
      | some s' => checkAlways step P s' as

theorem checkAlways_iff {P : S → Prop} [DecidablePred P] {s : S} {as : List A} :
    checkAlways step P s as = true ↔ Always step P s as := by
  induction as generalizing s with
  | nil =>
      unfold checkAlways
      rw [decide_eq_true_eq]
      constructor
      · intro hs pre post t hsplit hrun
        obtain ⟨rfl, -⟩ := List.append_eq_nil_iff.1 hsplit.symm
        cases hrun
        exact hs
      · exact fun h => h [] [] s rfl rfl
  | cons a as ih =>
      rw [always_cons, checkAlways, Bool.and_eq_true, decide_eq_true_eq]
      refine and_congr_right fun _ => ?_
      cases step s a with
      | none => simp
      | some s' => simp [ih]

instance (P : S → Prop) [DecidablePred P] (s : S) (as : List A) :
    Decidable (Always step P s as) :=
  decidable_of_iff _ checkAlways_iff

/-- The steps of a run, checked one after the other. -/
def checkEachStep (step : S → A → Option S) (G : S → A → Prop) [∀ s a, Decidable (G s a)] (s : S) :
    List A → Bool
  | [] => true
  | a :: as => match step s a with
      | none => true
      | some s' => decide (G s a) && checkEachStep step G s' as

theorem checkEachStep_iff {G : S → A → Prop} [∀ s a, Decidable (G s a)] {s : S} {as : List A} :
    checkEachStep step G s as = true ↔ EachStep step G s as := by
  induction as generalizing s with
  | nil => exact ⟨fun _ => eachStep_nil G s, fun _ => rfl⟩
  | cons a as ih =>
      rw [eachStep_cons, checkEachStep]
      cases step s a with
      | none => simp
      | some s' => simp [ih]

instance (G : S → A → Prop) [∀ s a, Decidable (G s a)] (s : S) (as : List A) :
    Decidable (EachStep step G s as) :=
  decidable_of_iff _ checkEachStep_iff

/-- **The guarded invariant rule.**  An invariant that every step meeting the
guard preserves holds all along a run whose steps meet the guard. -/
theorem always_of_eachStep {Inv : S → Prop} {G : S → A → Prop} {s : S} {as : List A} (h0 : Inv s)
    (hstep : ∀ s a s', Inv s → G s a → step s a = some s' → Inv s')
    (hG : EachStep step G s as) : Always step Inv s as := by
  intro pre
  induction pre using List.reverseRecOn with
  | nil => intro post t _ hrun; cases hrun; exact h0
  | append_singleton pre a ih =>
      intro post t hsplit hrun
      obtain ⟨s', hs', ht⟩ := run_concat_eq_some.1 hrun
      have hsplit' : as = pre ++ a :: post := by rw [hsplit, List.append_assoc]; rfl
      exact hstep s' a t (ih (a :: post) s' hsplit' hs') (hG pre a post s' t hsplit' hs' ht) ht

/-- **The exact rule.**  Let `Inv` be an unconditional invariant, and let a step
from a state with `P` lead to a state with `P` exactly when it meets `G`.  Then a
run stays in `P` exactly when each of its steps meets `G`. -/
theorem always_iff_eachStep (Inv : S → Prop) {P : S → Prop} {G : S → A → Prop} {s : S} {as : List A}
    (hInv : Inv s) (hP : P s) (hstep : ∀ s a s', Inv s → step s a = some s' → Inv s')
    (hiff : ∀ s a s', Inv s → P s → step s a = some s' → (P s' ↔ G s a)) :
    Always step P s as ↔ EachStep step G s as := by
  constructor
  · intro h pre a post t t' hsplit hrun ht
    have hInvt : Inv t := run_invariant Inv hInv hstep hrun
    have hrun' : run step s (pre ++ [a]) = some t' := run_concat_eq_some.2 ⟨t, hrun, ht⟩
    have hPt : P t := h pre (a :: post) t hsplit hrun
    have hPt' : P t' := by
      refine h (pre ++ [a]) post t' ?_ hrun'
      rw [hsplit, List.append_assoc]; rfl
    exact (hiff t a t' hInvt hPt ht).1 hPt'
  · intro h
    have hboth : Always step (fun t => Inv t ∧ P t) s as := by
      refine always_of_eachStep ⟨hInv, hP⟩ ?_ h
      intro t a t' ht hg hs
      exact ⟨hstep t a t' ht.1 hs, (hiff t a t' ht.1 ht.2 hs).2 hg⟩
    exact fun pre post t hsplit hrun => (hboth pre post t hsplit hrun).2

/-! ## What stays -/

/-- From any state of the run with `Has`, `Has` stays as long as `Live` does. -/
def StaysWhile (step : S → A → Option S) (Has Live : S → Prop) (s : S) (as : List A) : Prop :=
  ∀ pre mid post t u, as = pre ++ (mid ++ post) → run step s pre = some t → Has t →
    Always step Live t mid → run step t mid = some u → Has u

/-- **The rule of what stays.**  It is enough, and necessary, that no step loses it between
two live states. -/
theorem staysWhile_iff {Has Live : S → Prop} {s : S} {as : List A} :
    StaysWhile step Has Live s as ↔ EachStep step
      (fun t a => ∀ t', step t a = some t' → Has t → Live t → Live t' → Has t') s as := by
  constructor
  · intro h pre a post t _ hsplit hrun _ t' ht' hhas hlive hlive'
    refine h pre [a] post t t' hsplit hrun hhas ?_ ?_
    · rw [always_cons]
      refine ⟨hlive, fun v hv mid post' u hnil hu => ?_⟩
      obtain ⟨rfl, -⟩ := List.append_eq_nil_iff.1 hnil.symm
      cases hu
      cases hv.symm.trans ht'
      exact hlive'
    · rw [run_cons, ht']
      rfl
  · intro h pre mid
    -- the states between `t` and `u`, from the first to the last
    induction mid generalizing pre with
    | nil =>
        intro post t u _ _ hhas _ hu
        cases hu
        exact hhas
    | cons a mid ih =>
        intro post t u hsplit hrun hhas hlive hu
        rw [run_cons, Option.bind_eq_some_iff] at hu
        obtain ⟨t', ht', hu⟩ := hu
        obtain ⟨hlive0, hrest⟩ := always_cons.1 hlive
        have hlive' := hrest t' ht'
        have hhas' : Has t' :=
          h pre a (mid ++ post) t t' hsplit hrun ht' t' ht' hhas hlive0 (hlive' [] mid t' rfl rfl)
        refine ih (pre ++ [a]) post t' u ?_ (run_concat_eq_some.2 ⟨t, hrun, ht'⟩) hhas' hlive' hu
        rw [hsplit, List.append_assoc]
        rfl

/-! ## Reachable states -/

/-- Some run leads from `s` to `t`. -/
def Reaches (step : S → A → Option S) (s t : S) : Prop := ∃ as, run step s as = some t

theorem Reaches.refl (s : S) : Reaches step s s := ⟨[], rfl⟩

theorem Reaches.trans {s t u : S} (h : Reaches step s t) (h' : Reaches step t u) :
    Reaches step s u := by
  obtain ⟨as, has⟩ := h
  obtain ⟨bs, hbs⟩ := h'
  exact ⟨as ++ bs, run_append_eq_some.2 ⟨t, has, hbs⟩⟩

theorem Reaches.head {s t u : S} {a : A} (h : step s a = some t) (h' : Reaches step t u) :
    Reaches step s u := by
  obtain ⟨as, has⟩ := h'
  refine ⟨a :: as, ?_⟩
  rw [run_cons, h]
  exact has

/-- All states of all runs are the reachable ones. -/
theorem forall_always_iff {P : S → Prop} {s : S} :
    (∀ as, Always step P s as) ↔ ∀ t, Reaches step s t → P t := by
  constructor
  · rintro h t ⟨as, has⟩
    exact always_final (h as) has
  · intro h as pre post t _ hrun
    exact h t ⟨pre, hrun⟩

/-! ## Runs that end -/

/-- **The variant rule.**  If every step lowers `μ`, no run is longer than the value of
`μ` at its start. -/
theorem run_length_le (Inv : S → Prop) (μ : S → ℕ) {s t : S} {as : List A} (h0 : Inv s)
    (hstep : ∀ s a s', Inv s → step s a = some s' → Inv s' ∧ μ s' < μ s)
    (h : run step s as = some t) : as.length + μ t ≤ μ s := by
  induction as generalizing s with
  | nil => cases h; simp
  | cons a as ih =>
      rw [run_cons, Option.bind_eq_some_iff] at h
      obtain ⟨s', hs', ht⟩ := h
      obtain ⟨hInv, hlt⟩ := hstep s a s' h0 hs'
      have hlen := ih hInv ht
      rw [List.length_cons]
      omega

/-- If the runs from `s` are bounded, one of them ends where nothing is enabled. -/
theorem exists_stuck {s : S} {N : ℕ} (hN : ∀ as t, run step s as = some t → as.length ≤ N) :
    ∃ t, Reaches step s t ∧ ∀ a, step t a = none := by
  by_contra hgo
  -- else there is a run of every length
  have hlong : ∀ k, ∃ as t, run step s as = some t ∧ as.length = k := by
    intro k
    induction k with
    | zero => exact ⟨[], s, rfl, rfl⟩
    | succ k ih =>
        obtain ⟨as, t, hrun, hlen⟩ := ih
        have hnext : ∃ a t', step t a = some t' := by
          by_contra hno
          refine hgo ⟨t, ⟨as, hrun⟩, fun a => ?_⟩
          cases hs : step t a with
          | none => rfl
          | some t' => exact absurd ⟨a, t', hs⟩ hno
        obtain ⟨a, t', ht'⟩ := hnext
        refine ⟨as ++ [a], t', run_concat_eq_some.2 ⟨t, hrun, ht'⟩, ?_⟩
        rw [List.length_append, hlen]
        rfl
  obtain ⟨as, t, hrun, hlen⟩ := hlong (N + 1)
  have := hN as t hrun
  omega

end Runs
