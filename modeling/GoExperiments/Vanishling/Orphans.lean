import Mathlib.Data.Finset.Card
import GoExperiments.Vanishling.Ttl

/-!
# Files without a line

`upload` first creates the file and writes its line to the journal last.  Between the two
every step may fail and the process may crash, and nothing removes the file again.

* `FileAt`, `journalInv_step` — whatever fails, a complete line names no file that has not
  been created, not even a line that begins with the torn rest of another one.
* `heldInv_step` — while nothing fails, a file without a line belongs to an upload that is
  under way.
* `no_orphan_iff` — so there is never a file without a line exactly if no file is ever
  created; and between uploads there is none if no step after the creation fails and no
  crash comes in between.
* `orphan_after_crash` — a crash right after the creation leaves a file for good.
-/

namespace Vanishling

open Runs Lines Go

variable {tp : TimePkg} {s s' t : Service} {c : Call} {ans : Answer} {pc : CallAt} {a : Act}

/-! ## What is asked -/

/-- Every file in the storage directory is named by a complete line of the journal. -/
def NoOrphan (s : Service) : Prop :=
  ∀ path ∈ s.files, ∃ line ∈ completeLines s.journal, Names line path

/-- The step does not create a file. -/
def CreateFails (s : Service) : Act → Prop
  | .step i ans => ∀ c ∈ s.calls[i]?, ∀ d, c.pc = .create d →
      ans.ok = false ∨ joinStorage d.checksum ∈ s.files
  | _ => True

/-- The upload has created its file and not yet written its line. -/
def CallAt.storing : CallAt → Bool
  | .read _ | .write _ _ | .setTTL _ | .getTTL _ | .openJournal _ _ | .commit _ _ => true
  | _ => false

/-- A step of an upload that has created its file does what it should. -/
def CallAt.succeeds (tp : TimePkg) (ans : Answer) : CallAt → Bool
  | .read _ | .openJournal _ _ => ans.ok
  | .write _ size => ans.ok && size != 0
  | .commit name ttl => decide ((journalLine tp ans.now ttl name).length ≤ ans.n)
  | _ => true

/-- No upload is between the creation of its file and the end of its line. -/
def Idle (s : Service) : Prop := ∀ c ∈ s.calls, c.pc.storing = false

/-- After the creation of a file nothing fails, and the process only crashes when it is
idle. -/
def Unfailing (tp : TimePkg) (s : Service) : Act → Prop
  | .arrive _ => True
  | .step i ans => ∀ c ∈ s.calls[i]?, c.pc.succeeds tp ans = true
  | .crash => Idle s

instance (s : Service) : Decidable (Idle s) :=
  inferInstanceAs (Decidable (∀ c ∈ s.calls, c.pc.storing = false))

instance (tp : TimePkg) (s : Service) : ∀ a, Decidable (Unfailing tp s a)
  | .arrive _ => isTrue trivial
  | .step i ans => inferInstanceAs (Decidable (∀ c ∈ s.calls[i]?, c.pc.succeeds tp ans = true))
  | .crash => inferInstanceAs (Decidable (Idle s))

/-! ## Lines name created files -/

/-- A name that an upload may commit: without commas and newlines, and of a created file
unless it is empty. -/
def NameOk (s : Service) (name : Bytes) : Prop :=
  (comma ∉ name ∧ newline ∉ name) ∧ (joinStorage name ∈ s.files ∨ name = [])

/-- What an upload knows about its file. -/
def FileAt (s : Service) (c : Call) : Prop :=
  match c.pc with
  | .read d | .write d _ => joinStorage d.checksum ∈ s.files
  | .setTTL name | .getTTL name | .openJournal name _ | .commit name _ => NameOk s name
  | _ => True

structure JournalInv (s : Service) : Prop where
  lines : ∀ line ∈ completeLines s.journal, ∀ path, Names line path →
    path ∈ s.files ∨ path = defaultStoragePath
  calls : ∀ c ∈ s.calls, FileAt s c

theorem fileAt_mono (hfiles : s.files ⊆ t.files) (h : FileAt s c) : FileAt t c := by
  have hname : ∀ {name}, NameOk s name → NameOk t name :=
    fun hn => ⟨hn.1, hn.2.imp (fun hmem => hfiles hmem) id⟩
  unfold FileAt at h ⊢
  cases hpc : c.pc with
  | read d =>
      rw [hpc] at h
      exact hfiles h
  | write d size =>
      rw [hpc] at h
      exact hfiles h
  | setTTL name =>
      rw [hpc] at h
      exact hname h
  | getTTL name =>
      rw [hpc] at h
      exact hname h
  | openJournal name ttl =>
      rw [hpc] at h
      exact hname h
  | commit name ttl =>
      rw [hpc] at h
      exact hname h
  | _ => trivial

theorem files_called (h : Called tp s c ans t pc) : s.files ⊆ t.files := by
  cases h with
  | create d hpc hok hnew => exact Finset.subset_insert _ _
  | _ => exact Finset.Subset.refl _

/-- A torn write adds no complete line. -/
theorem completeLines_torn {name : Bytes} {now ttl : ℤ} {n : ℕ} (hplain : tp.Plain)
    (hname : comma ∉ name ∧ newline ∉ name) (hn : n < (journalLine tp now ttl name).length)
    (journal : Bytes) :
    completeLines (journal ++ (journalLine tp now ttl name).take n) = completeLines journal := by
  refine complete_append_of_not_mem ?_ journal
  unfold journalLine at hn ⊢
  rw [List.length_append, List.length_singleton] at hn
  rw [List.take_append_of_le_length (by omega)]
  intro hmem
  exact newline_not_mem_entryText hplain (plainPath_joinStorage hname) now ttl
    (List.mem_of_mem_take hmem)

/-- A whole write completes one line. -/
theorem completeLines_commit {name : Bytes} {now ttl : ℤ} (hplain : tp.Plain)
    (hname : comma ∉ name ∧ newline ∉ name) (journal : Bytes) :
    completeLines (journal ++ journalLine tp now ttl name) =
      completeLines journal ++ [pending newline journal ++ entryText tp now ttl name] :=
  complete_append_piece
    (newline_not_mem_entryText hplain (plainPath_joinStorage hname) now ttl) journal

/-- The lines after a step of an upload. -/
theorem lines_called (hplain : tp.Plain) (h : JournalInv s) (hc : FileAt s c)
    (hcalled : Called tp s c ans t pc) :
    ∀ line ∈ completeLines t.journal, ∀ path, Names line path →
      path ∈ t.files ∨ path = defaultStoragePath := by
  unfold FileAt at hc
  cases hcalled with
  | create d hpc hok hnew =>
      intro line hline path hnames
      exact (h.lines line hline path hnames).imp (fun hmem => Finset.mem_insert_of_mem hmem) id
  | commit name ttl hpc hn =>
      rw [hpc] at hc
      intro line hline path hnames
      have hline' : line ∈ completeLines (s.journal ++ journalLine tp ans.now ttl name) := hline
      rw [completeLines_commit hplain hc.1] at hline'
      rcases List.mem_append.1 hline' with hold | hnew
      · exact h.lines line hold path hnames
      · rw [List.mem_singleton.1 hnew] at hnames
        obtain rfl := names_append (plainPath_joinStorage hc.1) hnames
        refine hc.2.imp id fun hempty => ?_
        rw [hempty]
        rfl
  | torn name ttl hpc hn =>
      rw [hpc] at hc
      intro line hline path hnames
      have hline' :
        line ∈ completeLines (s.journal ++ (journalLine tp ans.now ttl name).take ans.n) := hline
      rw [completeLines_torn hplain hc.1 hn] at hline'
      exact h.lines line hline' path hnames
  | _ => exact h.lines

/-- The file of the upload that takes the step. -/
theorem fileAt_called (hc : FileAt s c) (hcalled : Called tp s c ans t pc) :
    FileAt t { c with pc := pc } := by
  unfold FileAt at hc
  cases hcalled with
  | form hpc => cases ans.ok <;> trivial
  | probe hpc => cases ans.ok <;> trivial
  | create d hpc hok hnew => exact Finset.mem_insert_self _ _
  | read d hpc hok =>
      rw [hpc] at hc
      exact hc
  | write d size hpc hok =>
      rw [hpc] at hc
      by_cases hsize : size = 0
      · simp only [if_pos hsize]
        exact ⟨⟨List.not_mem_nil, List.not_mem_nil⟩, Or.inr rfl⟩
      · simp only [if_neg hsize]
        exact ⟨checksum_plain d, Or.inl hc⟩
  | setTTL name hpc =>
      rw [hpc] at hc
      exact hc
  | getTTL name hpc =>
      rw [hpc] at hc
      exact hc
  | openJournal name ttl hpc =>
      rw [hpc] at hc
      cases ans.ok
      · trivial
      · exact hc
  | _ => trivial

/-- **A complete line names no file that was not created.** -/
theorem journalInv_step (hplain : tp.Plain) (h : JournalInv s) (hstep : step tp s a = some s') :
    JournalInv s' := by
  cases stepped_of_step hstep with
  | arrive header => exact ⟨h.lines, Census.forall_mem_concat h.calls trivial⟩
  | crash => exact ⟨h.lines, fun c hc => absurd hc List.not_mem_nil⟩
  | call i ans c t pc hc hcalled =>
      have hfile := h.calls c (List.mem_of_getElem? hc)
      have hlines := lines_called hplain h hfile hcalled
      refine ⟨hlines, ?_⟩
      show ∀ c' ∈ s.calls.set i { c with pc := pc }, FileAt t c'
      refine Census.forall_mem_set (fun c' hc' => ?_) (fileAt_called hfile hcalled) i
      exact fileAt_mono (files_called hcalled) (h.calls c' hc')

theorem journalInv_boot : JournalInv boot :=
  ⟨fun line hline => absurd hline (by simp [boot, completeLines]),
    fun c hc => absurd hc (by simp [boot])⟩

/-! ## Always and never -/

/-- A file that has just been created has no line. -/
theorem orphan_of_create {d : Digest} (h : JournalInv s) (hnew : joinStorage d.checksum ∉ s.files) :
    ¬ ∃ line ∈ completeLines s.journal, Names line (joinStorage d.checksum) := by
  rintro ⟨line, hline, hnames⟩
  rcases h.lines line hline _ hnames with hmem | hdir
  · exact hnew hmem
  · exact joinStorage_ne_dir (checksum_ne_nil d) hdir

/-- Without a creation the files stay as they are. -/
theorem files_of_createFails (hfails : CreateFails s a) (hstep : step tp s a = some s') :
    s'.files = s.files := by
  cases stepped_of_step hstep with
  | arrive header => rfl
  | crash => rfl
  | call i ans c t pc hc hcalled =>
      cases hcalled with
      | create d hpc hok hnew =>
          rcases hfails c hc d hpc with hno | hmem
          · rw [hok] at hno
            cases hno
          · exact absurd hmem hnew
      | _ => rfl

/-- No orphan in any state: exactly if nothing is ever created. -/
theorem always_noOrphan_iff (hplain : tp.Plain) (acts : List Act) :
    Always (step tp) NoOrphan boot acts ↔ EachStep (step tp) CreateFails boot acts := by
  constructor
  · intro h pre a post t t' hsplit hrun hstep
    have hinv : JournalInv t :=
      run_invariant JournalInv journalInv_boot
        (fun _ _ _ hs hst => journalInv_step hplain hs hst) hrun
    have hrun' : run (step tp) boot (pre ++ [a]) = some t' := run_concat_eq_some.2 ⟨t, hrun, hstep⟩
    have hno : NoOrphan t' := by
      refine h (pre ++ [a]) post t' ?_ hrun'
      rw [hsplit, List.append_assoc]
      rfl
    cases stepped_of_step hstep with
    | arrive header => trivial
    | crash => trivial
    | call i ans c u pc hc hcalled =>
        intro c' hc' d hpc
        obtain rfl : c = c' := Option.some.inj (hc.symm.trans hc')
        cases hcalled with
        | create d' hpc' hok hnew =>
            obtain rfl : d = d' := CallAt.create.inj (hpc.symm.trans hpc')
            exact (orphan_of_create hinv hnew (hno _ (Finset.mem_insert_self _ _))).elim
        | createFailed d' hpc' hok =>
            obtain rfl : d = d' := CallAt.create.inj (hpc.symm.trans hpc')
            by_cases hmem : joinStorage d.checksum ∈ t.files
            · exact Or.inr hmem
            · left
              by_contra hans
              exact hok ⟨Bool.not_eq_false _ ▸ hans, hmem⟩
        | _ => simp_all
  · intro h pre post t hsplit hrun path hpath
    have hempty : Always (step tp) (fun s => s.files = ∅) boot acts :=
      always_of_eachStep rfl (fun s a s' hs hg hst => (files_of_createFails hg hst).trans hs) h
    rw [hempty pre post t hsplit hrun] at hpath
    exact absurd hpath (Finset.notMem_empty _)

/-! ## When nothing fails -/

/-- The upload is going to write the line of this file. -/
def Holds (path : Bytes) (c : Call) : Prop :=
  match c.pc with
  | .read d | .write d _ => path = joinStorage d.checksum
  | .setTTL name | .getTTL name | .openJournal name _ | .commit name _ => path = joinStorage name
  | _ => False

/-- A file without a line belongs to an upload under way, and the journal ends with a whole
line. -/
structure HeldInv (s : Service) : Prop where
  journal : JournalInv s
  whole : pending newline s.journal = []
  held : ∀ path ∈ s.files, (∃ line ∈ completeLines s.journal, Names line path) ∨
    ∃ (i : ℕ) (c : Call), s.calls[i]? = some c ∧ Holds path c

theorem storing_of_holds {path : Bytes} (h : Holds path c) : c.pc.storing = true := by
  unfold Holds at h
  cases hpc : c.pc with
  | read d => rfl
  | write d size => rfl
  | setTTL name => rfl
  | getTTL name => rfl
  | openJournal name ttl => rfl
  | commit name ttl => rfl
  | _ =>
      rw [hpc] at h
      exact h.elim

/-- Between uploads no file is without a line. -/
theorem noOrphan_of_idle (h : HeldInv s) (hidle : Idle s) : NoOrphan s := by
  intro path hpath
  rcases h.held path hpath with hline | ⟨i, c, hc, hholds⟩
  · exact hline
  · have hno := hidle c (List.mem_of_getElem? hc)
    rw [storing_of_holds hholds] at hno
    cases hno

/-- The upload that takes a step goes on with its file, or writes its line. -/
theorem holds_called {path : Bytes} (hplain : tp.Plain) (hwhole : pending newline s.journal = [])
    (hc : FileAt s c) (hok : c.pc.succeeds tp ans = true) (hcalled : Called tp s c ans t pc)
    (h : Holds path c) :
    Holds path { c with pc := pc } ∨ ∃ line ∈ completeLines t.journal, Names line path := by
  unfold Holds at h
  unfold FileAt at hc
  cases hcalled with
  | read d hpc _ =>
      rw [hpc] at h
      exact Or.inl h
  | readFailed d hpc hno =>
      rw [hpc] at hok
      exact absurd (hno.symm.trans hok) Bool.noConfusion
  | write d size hpc _ =>
      rw [hpc] at h hok
      have hsize : size ≠ 0 := by
        intro hzero
        rw [hzero] at hok
        simp [CallAt.succeeds] at hok
      left
      show Holds path { c with pc := .setTTL (if size = 0 then [] else d.checksum) }
      rw [if_neg hsize]
      exact h
  | writeFailed d size hpc hno =>
      rw [hpc] at hok
      simp [CallAt.succeeds, hno] at hok
  | setTTL name hpc =>
      rw [hpc] at h
      exact Or.inl h
  | getTTL name hpc =>
      rw [hpc] at h
      exact Or.inl h
  | openJournal name ttl hpc =>
      rw [hpc] at h hok
      have hans : ans.ok = true := hok
      left
      show Holds path { c with pc := if ans.ok then .commit name ttl else .failed }
      rw [if_pos hans]
      exact h
  | commit name ttl hpc hn =>
      rw [hpc] at h hc
      right
      refine ⟨entryText tp ans.now ttl name, ?_, ?_⟩
      · show _ ∈ completeLines (s.journal ++ journalLine tp ans.now ttl name)
        rw [completeLines_commit hplain hc.1, hwhole]
        exact List.mem_append_right _ (List.mem_singleton_self _)
      · rw [h]
        exact names_entryText hplain (plainPath_joinStorage hc.1) ans.now ttl
  | torn name ttl hpc hn =>
      rw [hpc] at hok
      have hle : (journalLine tp ans.now ttl name).length ≤ ans.n := of_decide_eq_true hok
      omega
  | form hpc => rw [hpc] at h; exact h.elim
  | probe hpc => rw [hpc] at h; exact h.elim
  | lock hpc _ => rw [hpc] at h; exact h.elim
  | hash hpc _ => rw [hpc] at h; exact h.elim
  | hashFailed hpc _ => rw [hpc] at h; exact h.elim
  | create d hpc _ _ => rw [hpc] at h; exact h.elim
  | createFailed d hpc _ => rw [hpc] at h; exact h.elim

/-- Whole lines only. -/
theorem whole_called (hplain : tp.Plain) (hwhole : pending newline s.journal = [])
    (hc : FileAt s c) (hok : c.pc.succeeds tp ans = true) (hcalled : Called tp s c ans t pc) :
    pending newline t.journal = [] := by
  unfold FileAt at hc
  cases hcalled with
  | commit name ttl hpc hn =>
      rw [hpc] at hc
      exact pending_append_piece
        (newline_not_mem_entryText hplain (plainPath_joinStorage hc.1) ans.now ttl) s.journal
  | torn name ttl hpc hn =>
      rw [hpc] at hok
      have hle : (journalLine tp ans.now ttl name).length ≤ ans.n := of_decide_eq_true hok
      omega
  | _ => exact hwhole

/-- A new file is held by the upload that created it. -/
theorem new_file_held {path : Bytes} (hcalled : Called tp s c ans t pc) (hmem : path ∈ t.files)
    (hnew : path ∉ s.files) : Holds path { c with pc := pc } := by
  cases hcalled with
  | create d hpc hok hnew' =>
      rcases Finset.mem_insert.1 hmem with rfl | hold
      · exact rfl
      · exact absurd hold hnew
  | _ => exact absurd hmem hnew

/-- **While nothing fails, every file has its line or an upload that will write it.** -/
theorem heldInv_step (hplain : tp.Plain) (h : HeldInv s) (hok : Unfailing tp s a)
    (hstep : step tp s a = some s') : HeldInv s' := by
  have hjournal := journalInv_step hplain h.journal hstep
  cases stepped_of_step hstep with
  | arrive header =>
      refine ⟨hjournal, h.whole, fun path hpath => (h.held path hpath).imp id ?_⟩
      rintro ⟨i, c, hc, hholds⟩
      exact ⟨i, c, Census.getElem?_concat_of_some hc _, hholds⟩
  | crash =>
      have hnone := noOrphan_of_idle h hok
      exact ⟨hjournal, h.whole, fun path hpath => Or.inl (hnone path hpath)⟩
  | call i ans c t pc hc hcalled =>
      have hfile := h.journal.calls c (List.mem_of_getElem? hc)
      have hsucc := hok c hc
      have hwhole := whole_called hplain h.whole hfile hsucc hcalled
      refine ⟨hjournal, hwhole, fun path hpath => ?_⟩
      have hself := Census.getElem?_set_self_of_some hc { c with pc := pc }
      by_cases hold : path ∈ s.files
      · rcases h.held path hold with ⟨line, hline, hnames⟩ | ⟨j, c', hj, hholds⟩
        · exact Or.inl ⟨line, completeLines_mono (journal_called hcalled) hline, hnames⟩
        · by_cases hij : i = j
          · subst hij
            obtain rfl : c = c' := Option.some.inj (hc.symm.trans hj)
            rcases holds_called hplain h.whole hfile hsucc hcalled hholds with hgo | hline
            · exact Or.inr ⟨i, _, hself, hgo⟩
            · exact Or.inl hline
          · exact Or.inr ⟨j, c', (List.getElem?_set_ne hij).trans hj, hholds⟩
      · exact Or.inr ⟨i, _, hself, new_file_held hcalled hpath hold⟩

theorem heldInv_boot : HeldInv boot :=
  ⟨journalInv_boot, by simp [boot], fun path hpath => absurd hpath (by simp [boot])⟩

/-- **Files and lines.**  On every run there is a line for every file in every state if
and only if no file is ever created; and if nothing fails after the creation of a file and
no crash comes before its line is written, there is a line for every file in every state in
which no upload is under way. -/
theorem no_orphan_iff (tp : TimePkg) (acts : List Act) (hplain : tp.Plain) :
    (Always (step tp) NoOrphan boot acts ↔ EachStep (step tp) CreateFails boot acts) ∧
      (EachStep (step tp) (Unfailing tp) boot acts →
        Always (step tp) (fun s => Idle s → NoOrphan s) boot acts) := by
  refine ⟨always_noOrphan_iff hplain acts, fun hok => ?_⟩
  have hall : Always (step tp) HeldInv boot acts :=
    always_of_eachStep heldInv_boot (fun s a s' hs hg hstep => heldInv_step hplain hs hg hstep) hok
  intro pre post t hsplit hrun hidle
  exact noOrphan_of_idle (hall pre post t hsplit hrun) hidle

theorem no_orphan_iff_inTurn :
    ((run (step sampleTime) boot inTurnActs).map fun t => t.files.card) = some 2 ∧
      Always (step sampleTime) (fun s => Idle s → NoOrphan s) boot inTurnActs :=
  ⟨by decide +kernel, (no_orphan_iff sampleTime inTurnActs plain_sampleTime).2 (by decide +kernel)⟩

/-- The process crashes when the file has been created. -/
def crashActs : List Act :=
  .arrive (ascii "10s") :: List.replicate 5 (.step 0 (sampleAnswer 1)) ++ [.crash]

/-- **A crash leaves a file for good.**  After the restart no upload is under way, and the
journal is empty. -/
theorem orphan_after_crash :
    ∃ t, run (step sampleTime) boot crashActs = some t ∧ t.calls = [] ∧ ¬ NoOrphan t := by
  have hend : ((run (step sampleTime) boot crashActs).map fun t =>
      (t.calls, t.journal, decide (joinStorage (sampleAnswer 1).digest.checksum ∈ t.files))) =
      some ([], [], true) := by
    decide +kernel
  obtain ⟨t, hrun, ht⟩ := Option.map_eq_some_iff.1 hend
  simp only [Prod.mk.injEq, decide_eq_true_eq] at ht
  obtain ⟨hcalls, hjournal, hmem⟩ := ht
  refine ⟨t, hrun, hcalls, fun hno => ?_⟩
  obtain ⟨line, hline, -⟩ := hno _ hmem
  rw [hjournal] at hline
  exact absurd hline (by simp [completeLines])

end Vanishling
