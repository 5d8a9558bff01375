import GoExperiments.Vanishling.Cleaner
import GoExperiments.Vanishling.Ttl

/-!
# Uploads and the cleaner together

The cleaner runs beside the uploads and takes no lock: lines may be committed between any
two steps of a pass.  A pass looks at the journal as it was at the beginning, and empties
the journal as it is at the end if that has become larger than a limit.

* `passStep` — a pass of `deleteFunc`, one step at a time; `reaches_deleteFunc` — without
  interruption it does what `deleteFunc` does.
* `serverStep` — the steps of the uploads and those of the passes, in any order.
* `LinesStay` — a complete line stays in the journal as long as its file exists.
* `linesStay_iff` — this holds on a run if and only if the journal is never emptied while a
  complete line of it names an existing file.
* `Careful` — what sees to that, step by step: in a pass over a journal larger than the limit
  every file is due or gone when the loop comes to its line, and meanwhile no line is committed
  and no file of an old line comes back.
* `PassInv` — the invariant of a pass: in a large journal, the lines of existing files are still
  ahead of the loop.
* `lines_stay` — so lines stay on every run with such steps.
* `truncate_forgets_live_file` — nothing in the cleaner makes it so: a file that still has half
  an hour to live loses its line.
-/

namespace Vanishling

open Runs Lines Go

/-! ## The server -/

/-- Where the cleaner is: `entries` are the lines of its copy of the journal that it has not
yet looked at. -/
inductive PassAt where
  | idle
  | entries (es : List Bytes)
  | stat
  | truncate
  deriving DecidableEq

/-- The line that the loop comes to next. -/
def PassAt.next : PassAt → Option Bytes
  | .entries (e :: _) => some e
  | _ => none

structure Server where
  service : Service
  pass : PassAt

/-- An upload takes a step, or the cleaner does; the operating system says whether the
cleaner's operation succeeds, and what time it is. -/
inductive ServerAct where
  | upload (a : Act)
  | clean (ok : Bool) (now : ℤ)

/-- One step of a pass.  From `idle` the ticker starts the next one. -/
def passStep (tp : TimePkg) (limit : ℕ) (s : Server) (ok : Bool) (now : ℤ) : Server :=
  match s.pass with
  | .idle =>
      { s with pass := if ok then .entries (s.service.journal.splitOn newline) else .idle }
  | .entries (e :: es) =>
      match verdict tp some now s.service.files e with
      | .skip => { s with pass := .entries es }
      | .stop _ => { s with pass := .idle }
      | .remove f =>
          if ok then
            { service := { s.service with files := s.service.files.erase f }, pass := .entries es }
          else { s with pass := .idle }
  -- lsfFile.Close
  | .entries [] => { s with pass := if ok then .stat else .idle }
  | .stat => { s with pass := if ok ∧ s.service.journal.length > limit then .truncate else .idle }
  | .truncate =>
      if ok then { service := { s.service with journal := [] }, pass := .idle }
      else { s with pass := .idle }

/-- One step of the server.  A crash ends the pass too. -/
def serverStep (tp : TimePkg) (limit : ℕ) (s : Server) : ServerAct → Option Server
  | .upload .crash => (step tp s.service .crash).map fun t => { service := t, pass := .idle }
  | .upload a => (step tp s.service a).map fun t => { s with service := t }
  | .clean ok now => some (passStep tp limit s ok now)

variable {tp : TimePkg} {limit : ℕ} {s s' : Server} {ok : Bool} {now : ℤ}

/-! ## A pass without interruption -/

/-- The pass steps of the loop. -/
theorem reaches_cleanLoop (tp : TimePkg) (limit : ℕ) (now : ℤ) (removes : Bytes → Bool)
    (es : List Bytes) (t : Service) :
    Reaches (serverStep tp limit) ⟨t, .entries es⟩
      { service := { t with files := (cleanLoop tp some now removes es t.files).1 }
        pass := if (cleanLoop tp some now removes es t.files).2 = none then .entries []
          else .idle } := by
  induction es generalizing t with
  | nil => exact Reaches.refl _
  | cons e es ih =>
      unfold cleanLoop
      cases hv : verdict tp some now t.files e with
      | skip =>
          refine Reaches.head (a := .clean true now) ?_ (ih t)
          simp [serverStep, passStep, hv]
      | stop err =>
          refine Reaches.head (a := .clean true now) ?_ (Reaches.refl _)
          simp [serverStep, passStep, hv]
      | remove f =>
          by_cases hr : removes f = true
          · simp only [if_pos hr]
            refine Reaches.head (a := .clean true now) ?_ (ih { t with files := t.files.erase f })
            simp [serverStep, passStep, hv]
          · refine Reaches.head (a := .clean false now) ?_ (Reaches.refl _)
            simp [serverStep, passStep, hv, hr]

/-- **A pass does what `deleteFunc` does**, if nothing comes between. -/
theorem reaches_deleteFunc (tp : TimePkg) (limit : ℕ) (now : ℤ) (removes : Bytes → Bool)
    (t : Service) :
    Reaches (serverStep tp limit) ⟨t, .idle⟩
      { service := { t with
          files := (deleteFunc tp some now removes limit t.journal t.files).1
          journal := (deleteFunc tp some now removes limit t.journal t.files).2.1 }
        pass := .idle } := by
  have hloop := reaches_cleanLoop tp limit now removes (t.journal.splitOn newline) t
  refine Reaches.head (a := .clean true now) rfl (Reaches.trans hloop ?_)
  unfold deleteFunc
  cases hc : cleanLoop tp some now removes (t.journal.splitOn newline) t.files with
  | mk files err =>
      cases err with
      | some err => exact Reaches.refl _
      | none =>
          -- close, stat and, for a large journal, truncate
          refine Reaches.head (a := .clean true now) rfl ?_
          by_cases hlarge : t.journal.length > limit
          · refine Reaches.head (a := .clean true now)
              (by simp [serverStep, passStep, hlarge]; rfl) ?_
            refine Reaches.head (a := .clean true now) (by simp [serverStep, passStep]; rfl) ?_
            simp only [if_pos hlarge]
            exact Reaches.refl _
          · refine Reaches.head (a := .clean true now)
              (by simp [serverStep, passStep, hlarge]; rfl) ?_
            simp only [if_neg hlarge]
            exact Reaches.refl _

/-! ## Lines of existing files -/

/-- A complete line stays in the journal as long as the file it names exists. -/
def LinesStay (tp : TimePkg) (limit : ℕ) (s : Server) (acts : List ServerAct) : Prop :=
  ∀ line path, Names line path →
    StaysWhile (serverStep tp limit) (fun t => line ∈ completeLines t.service.journal)
      (fun t => path ∈ t.service.files) s acts

/-- If the step empties the journal, no complete line names an existing file. -/
def ForgetsNone (s : Server) : ServerAct → Prop
  | .upload _ => True
  | .clean ok _ => s.pass = .truncate → ok = true →
      ∀ line ∈ completeLines s.service.journal, ∀ path, Names line path → path ∉ s.service.files

/-- Behind the step of an upload is one of the service alone. -/
theorem step_of_upload {a : Act} (h : serverStep tp limit s (.upload a) = some s') :
    step tp s.service a = some s'.service := by
  cases a <;>
  · simp only [serverStep] at h
    obtain ⟨t, ht, rfl⟩ := Option.map_eq_some_iff.1 h
    exact ht

/-- A pass changes the journal only by emptying it, and then no file. -/
theorem journal_passStep (tp : TimePkg) (limit : ℕ) (s : Server) (ok : Bool) (now : ℤ) :
    (s.pass = .truncate ∧ ok = true ∧ (passStep tp limit s ok now).service.journal = [] ∧
        (passStep tp limit s ok now).service.files = s.service.files) ∨
      (¬ (s.pass = .truncate ∧ ok = true) ∧
        (passStep tp limit s ok now).service.journal = s.service.journal) := by
  unfold passStep
  cases hpass : s.pass with
  | idle => exact Or.inr ⟨by simp, rfl⟩
  | stat => exact Or.inr ⟨by simp, rfl⟩
  | truncate =>
      cases ok with
      | true => exact Or.inl ⟨rfl, rfl, rfl, rfl⟩
      | false => exact Or.inr ⟨by simp, rfl⟩
  | entries es =>
      refine Or.inr ⟨by simp, ?_⟩
      cases es with
      | nil => rfl
      | cons e es =>
          dsimp only
          cases verdict tp some now s.service.files e with
          | skip => rfl
          | stop err => rfl
          | remove f => cases ok <;> rfl

/-- **What a step may lose.** -/
theorem lines_stay_step {a : ServerAct} (h : serverStep tp limit s a = some s') :
    (∀ line path, Names line path → line ∈ completeLines s.service.journal →
        path ∈ s.service.files → path ∈ s'.service.files →
        line ∈ completeLines s'.service.journal) ↔ ForgetsNone s a := by
  cases a with
  | upload a =>
      refine ⟨fun _ => trivial, fun _ line path _ hline _ _ => ?_⟩
      exact completeLines_mono (journal_step (step_of_upload h)) hline
  | clean ok now =>
      cases h
      rcases journal_passStep tp limit s ok now with
        ⟨hpass, hok, hjournal, hfiles⟩ | ⟨hno, hjournal⟩
      · rw [hjournal, hfiles]
        constructor
        · intro hstay _ _ line hline path hnames hmem
          exact absurd (hstay line path hnames hline hmem hmem) (by simp [completeLines])
        · intro hnone line path hnames hline hmem _
          exact absurd hmem (hnone hpass hok line hline path hnames)
      · rw [hjournal]
        refine ⟨fun _ hpass hok => absurd ⟨hpass, hok⟩ hno, fun _ line path _ hline _ _ => hline⟩

/-- On every run of the server, for every limit, complete lines stay as long as their files
exist if and only if the journal is never emptied while a complete line names an existing
file. -/
theorem linesStay_iff (tp : TimePkg) (limit : ℕ) (s : Server) (acts : List ServerAct) :
    LinesStay tp limit s acts ↔ EachStep (serverStep tp limit) ForgetsNone s acts := by
  unfold LinesStay
  simp only [staysWhile_iff]
  constructor
  · intro h pre a post t t' hsplit hrun hstep
    refine (lines_stay_step hstep).1 fun line path hnames hline hmem hmem' => ?_
    exact h line path hnames pre a post t t' hsplit hrun hstep t' hstep hline hmem hmem'
  · intro h line path hnames pre a post t _ hsplit hrun _ t' hstep hline hmem hmem'
    exact (lines_stay_step hstep).2 (h pre a post t t' hsplit hrun hstep) line path hnames hline
      hmem hmem'

/-! ## Careful steps -/

/-- A line that the loop need not see again: its file does not exist, or is due.  At a line that
cannot be read the pass ends, without a look at the size. -/
def DueOrGone (tp : TimePkg) (now : ℤ) (files : Finset Bytes) (e : Bytes) : Prop :=
  ∀ path ∈ entryPath e, path ∈ files → Due tp some now e path ∨ Bad tp some e path

/-- What an upload may do while a pass is under way: it creates no file that a line of a large
journal names, and writes only what leaves the journal within the limit. -/
def CarefulCall (tp : TimePkg) (limit : ℕ) (t : Service) (ans : Answer) : CallAt → Prop
  | .create d => limit < t.journal.length →
      ∀ line ∈ completeLines t.journal, entryPath line ≠ some (joinStorage d.checksum)
  | .commit name ttl =>
      (journalLine tp ans.now ttl name).take ans.n = [] ∨
        (t.journal ++ (journalLine tp ans.now ttl name).take ans.n).length ≤ limit
  | _ => True

/-- **The condition on a step**: in a pass over a journal larger than the limit every file is due
or gone when the loop comes to its line, and uploads beside a pass are careful. -/
def Careful (tp : TimePkg) (limit : ℕ) (s : Server) : ServerAct → Prop
  | .clean _ now => ∀ e ∈ s.pass.next, limit < s.service.journal.length →
      DueOrGone tp now s.service.files e
  | .upload (.step i ans) => s.pass ≠ .idle →
      ∀ c ∈ s.service.calls[i]?, CarefulCall tp limit s.service ans c.pc
  | .upload _ => True

instance (tp : TimePkg) (now : ℤ) (files : Finset Bytes) (e : Bytes) :
    Decidable (DueOrGone tp now files e) :=
  inferInstanceAs (Decidable (∀ path ∈ entryPath e, _))

instance (tp : TimePkg) (limit : ℕ) (t : Service) (ans : Answer) (pc : CallAt) :
    Decidable (CarefulCall tp limit t ans pc) :=
  match pc with
  | .create _ => inferInstanceAs (Decidable (_ → ∀ line ∈ completeLines t.journal, _))
  | .commit _ _ => inferInstanceAs (Decidable (_ ∨ _))
  | .form | .probe | .lock | .hash | .read _ | .write _ _ | .setTTL _ | .getTTL _
  | .openJournal _ _ | .committed _ _ | .failed => inferInstanceAs (Decidable True)

instance (tp : TimePkg) (limit : ℕ) (s : Server) (a : ServerAct) :
    Decidable (Careful tp limit s a) :=
  match a with
  | .clean _ _ => inferInstanceAs (Decidable (∀ e ∈ s.pass.next, _))
  | .upload (.step i _) => inferInstanceAs (Decidable (_ → ∀ c ∈ s.service.calls[i]?, _))
  | .upload (.arrive _) | .upload .crash => inferInstanceAs (Decidable True)

/-- In a large journal, the complete lines of existing files are among `es`. -/
def Ahead (limit : ℕ) (t : Service) (es : List Bytes) : Prop :=
  limit < t.journal.length →
    ∀ line ∈ completeLines t.journal, ∀ path, Names line path → path ∈ t.files → line ∈ es

/-- **The invariant of a pass.**  When it comes to emptying a large journal, no line is left. -/
def PassInv (limit : ℕ) (s : Server) : Prop :=
  match s.pass with
  | .idle => True
  | .entries es => Ahead limit s.service es
  | .stat => Ahead limit s.service []
  | .truncate => limit < s.service.journal.length ∧ Ahead limit s.service []

/-- A careful step of an upload puts no line behind the loop. -/
theorem ahead_called {t t' : Service} {c : Call} {ans : Answer} {pc : CallAt} {es : List Bytes}
    (h : Called tp t c ans t' pc) (hcareful : CarefulCall tp limit t ans c.pc)
    (hahead : Ahead limit t es) : Ahead limit t' es := by
  -- a write that leaves the journal small leaves nothing to show
  have hwrite : ∀ {text : Bytes}, text = [] ∨ (t.journal ++ text).length ≤ limit →
      Ahead limit { t with journal := t.journal ++ text } es := by
    rintro text (rfl | hsmall)
    · rw [List.append_nil]
      exact hahead
    · exact fun hlarge => absurd hlarge (Nat.not_lt.2 hsmall)
  cases h with
  | create d hpc hok hnew =>
      rw [hpc] at hcareful
      intro hlarge line hline path hnames hmem
      obtain rfl | hmem := Finset.mem_insert.1 hmem
      · exact absurd (entryPath_eq_some_iff.2 hnames) (hcareful hlarge line hline)
      · exact hahead hlarge line hline path hnames hmem
  | commit name ttl hpc hn =>
      rw [hpc, CarefulCall, List.take_of_length_le hn] at hcareful
      exact hwrite hcareful
  | torn name ttl hpc hn =>
      rw [hpc] at hcareful
      exact hwrite hcareful
  | _ => exact hahead

/-- The loop goes on to the next line. -/
theorem ahead_skip {t : Service} {e : Bytes} {es : List Bytes}
    (hskip : verdict tp some now t.files e = .skip)
    (hdone : limit < t.journal.length → DueOrGone tp now t.files e)
    (hahead : Ahead limit t (e :: es)) : Ahead limit t es := by
  intro hlarge line hline path hnames hmem
  obtain rfl | hes := List.mem_cons.1 (hahead hlarge line hline path hnames hmem)
  · have hpath := hdone hlarge path (entryPath_eq_some_iff.2 hnames) hmem
    rcases verdict_cases tp some now t.files line with ⟨-, hnone⟩ | ⟨f, -, hv, -⟩ |
      ⟨f, -, ⟨err, hv⟩, -⟩
    · obtain ⟨hnotdue, hnotbad⟩ := hnone path hmem
      exact absurd hpath (not_or.2 ⟨hnotdue, hnotbad⟩)
    · rw [hskip] at hv
      cases hv
    · rw [hskip] at hv
      cases hv
  · exact hes

/-- The file of the line is removed. -/
theorem ahead_remove {t : Service} {e f : Bytes} {es : List Bytes}
    (hdue : Due tp some now e f) (hahead : Ahead limit t (e :: es)) :
    Ahead limit { t with files := t.files.erase f } es := by
  intro hlarge line hline path hnames hmem
  obtain ⟨hne, hmem⟩ := Finset.mem_erase.1 hmem
  obtain rfl | hes := List.mem_cons.1 (hahead hlarge line hline path hnames hmem)
  · obtain ⟨date, ttl, hsplit⟩ := hnames
    exact absurd (Option.some.inj ((due_fields hsplit).1 hdue).1) hne
  · exact hes

theorem passInv_passStep (hinv : PassInv limit s) (hcareful : Careful tp limit s (.clean ok now)) :
    PassInv limit (passStep tp limit s ok now) := by
  obtain ⟨t, pass⟩ := s
  unfold passStep
  cases pass with
  | idle =>
      cases ok with
      | false => trivial
      | true => exact fun _ line hline _ _ _ => List.mem_of_mem_dropLast hline
  | stat =>
      dsimp only
      split_ifs with hlarge
      · exact ⟨hlarge.2, hinv⟩
      · trivial
  | truncate => cases ok <;> trivial
  | entries es =>
      cases es with
      | nil =>
          cases ok with
          | false => trivial
          | true => exact hinv
      | cons e es =>
          have hdone := hcareful e rfl
          dsimp only at hdone ⊢
          rcases verdict_cases tp some now t.files e with ⟨hv, -⟩ | ⟨f, -, hv, hdue⟩ |
            ⟨f, -, ⟨err, hv⟩, -⟩
          · rw [hv]
            exact ahead_skip hv hdone hinv
          · rw [hv]
            cases ok with
            | false => trivial
            | true => exact ahead_remove hdue hinv
          · rw [hv]
            trivial

/-- **Careful steps keep the invariant.** -/
theorem passInv_step {a : ServerAct} (hinv : PassInv limit s) (hcareful : Careful tp limit s a)
    (h : serverStep tp limit s a = some s') : PassInv limit s' := by
  cases a with
  | clean ok now =>
      cases h
      exact passInv_passStep hinv hcareful
  | upload a =>
      have hstep := step_of_upload h
      have hgrows := journal_step hstep
      cases a with
      | crash =>
          cases h
          trivial
      | arrive header =>
          cases h
          exact hinv
      | step i ans =>
          obtain ⟨t, pass⟩ := s
          simp only [serverStep] at h
          obtain ⟨t', ht', rfl⟩ := Option.map_eq_some_iff.1 h
          -- the pass stays where it is, and the upload puts no line behind the loop
          have hahead : ∀ es, pass ≠ .idle → Ahead limit t es → Ahead limit t' es := by
            intro es hpass hes
            cases stepped_of_step ht' with
            | call i ans c u pc hc hcalled =>
                have hu := ahead_called hcalled (hcareful hpass c hc) hes
                exact hu
          cases pass with
          | idle => trivial
          | entries es => exact hahead es (by simp) hinv
          | stat => exact hahead [] (by simp) hinv
          | truncate =>
              exact ⟨Nat.lt_of_lt_of_le hinv.1 hgrows.length_le, hahead [] (by simp) hinv.2⟩

/-- **Live files and the journal.**  For every limit and every interleaving of uploads and
passes in which the steps are careful, a complete line stays in the journal as long as the file
it names exists. -/
theorem lines_stay (tp : TimePkg) (limit : ℕ) (t : Service) (acts : List ServerAct)
    (h : EachStep (serverStep tp limit) (Careful tp limit) ⟨t, .idle⟩ acts) :
    LinesStay tp limit ⟨t, .idle⟩ acts := by
  have hall : Always (serverStep tp limit) (PassInv limit) ⟨t, .idle⟩ acts :=
    always_of_eachStep trivial (fun s a s' hs hg hstep => passInv_step hs hg hstep) h
  refine (linesStay_iff tp limit ⟨t, .idle⟩ acts).2 fun pre a post u u' hsplit hrun hstep => ?_
  have hinv := hall pre (a :: post) u hsplit hrun
  cases a with
  | upload a => trivial
  | clean ok now =>
      intro hpass _ line hline path hnames hmem
      unfold PassInv at hinv
      rw [hpass] at hinv
      exact absurd (hinv.2 hinv.1 line hline path hnames hmem) List.not_mem_nil

/-! ## A large journal -/

/-- A file is uploaded and journalled at the epoch. -/
def uploadActs (header : Bytes) : List ServerAct :=
  .upload (.arrive header) :: (storeActs 0 1 ++ commitActs 0 1).map ServerAct.upload

/-- A pass goes through the two pieces of the journal and comes to its end. -/
def passActs (now : ℤ) : List ServerAct := List.replicate 6 (.clean true now)

/-- A pass after twenty seconds removes a file uploaded for ten and empties the journal: no line
was needed any more. -/
theorem lines_stay_late :
    ((run (serverStep sampleTime 64) ⟨boot, .idle⟩
        (uploadActs (ascii "10s") ++ passActs (20 * second))).any fun t =>
          t.service.journal.isEmpty) = true ∧
      LinesStay sampleTime 64 ⟨boot, .idle⟩ (uploadActs (ascii "10s") ++ passActs (20 * second)) :=
  ⟨by decide +kernel, lines_stay sampleTime 64 boot _ (by decide +kernel)⟩

def halfHourFile : Bytes := (sampleAnswer 1).digest.checksum

/-- **A live file loses its line.**  The file has been journalled at the epoch; one second
later a pass keeps the file and empties the journal, which is over the limit. -/
theorem truncate_forgets_live_file :
    ¬ LinesStay sampleTime 64 ⟨boot, .idle⟩ (uploadActs (ascii "30m") ++ passActs second) := by
  intro h
  have hnames : Names (entryText sampleTime 0 1800000000000 halfHourFile)
      (joinStorage halfHourFile) :=
    names_entryText plain_sampleTime (plainPath_joinStorage (checksum_plain _)) _ _
  have hrun : ((run (serverStep sampleTime 64) ⟨boot, .idle⟩
      (uploadActs (ascii "30m"))).any fun t =>
      decide
        (entryText sampleTime 0 1800000000000 halfHourFile ∈ completeLines t.service.journal) &&
      decide (Always (serverStep sampleTime 64)
        (fun v => joinStorage halfHourFile ∈ v.service.files) t (passActs second)) &&
      (run (serverStep sampleTime 64) t (passActs second)).any fun u =>
        u.service.journal.isEmpty) = true := by
    decide +kernel
  obtain ⟨hsome, hall⟩ := (Option.any_eq_true_iff_get _ _).1 hrun
  rw [Bool.and_eq_true, Bool.and_eq_true, decide_eq_true_eq, decide_eq_true_eq] at hall
  obtain ⟨⟨hline, hlive⟩, hend⟩ := hall
  obtain ⟨hsome', hempty⟩ := (Option.any_eq_true_iff_get _ _).1 hend
  have hstays := h _ _ hnames (uploadActs (ascii "30m")) (passActs second) [] _ _
    (by rw [List.append_nil]) (Option.some_get hsome).symm hline hlive (Option.some_get hsome').symm
  dsimp only at hstays
  rw [List.isEmpty_iff.1 hempty] at hstays
  exact absurd hstays (by simp [completeLines])

end Vanishling
