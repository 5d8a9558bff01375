import Mathlib.Data.Finset.Erase
import Mathlib.Data.Finset.Insert
import GoExperiments.Vanishling.Journal

/-!
# The cleaner

`deleteFunc` reads the journal, goes through its lines and removes the files whose time is
over.  It skips a line that has not three fields or whose file does not exist, but leaves
the loop for good at a line whose date or duration cannot be read.

* `verdict` — what the loop does with one line; `deleteFunc` — the whole pass.
* `Due`, `Bad` — the same in words of the journal: which lines call for the removal of a
  file, and which ones stop the loop.
* `cleanLoop_cases` — the loop works up to the first bad line of a file that is still
  there.
* `clean_exact_iff` — so a pass removes exactly the due files if and only if no due line is
  behind such a line.
* `torn_line_stops_cleaning` — a torn line in front of a due one keeps the due file.
-/

namespace Vanishling

open Go

variable {F : Type*}

/-! ## The pass -/

/-- The errors with which `deleteFunc` leaves the loop. -/
inductive CleanError where
  | parseDate
  | invalidTTL
  | failedDeletion
  deriving DecidableEq, Repr

/-- What a round of the loop decides. -/
inductive Verdict (F : Type*) where
  | skip
  | stop (err : CleanError)
  | remove (f : F)
  deriving DecidableEq

/-- One round of the loop on an entry; `resolve` says which file a path leads to. -/
def verdict [DecidableEq F] (tp : TimePkg) (resolve : Bytes → Option F) (now : ℤ)
    (files : Finset F) (entry : Bytes) : Verdict F :=
  match entry.splitOn comma with
  | [date, ttl, fp] =>
      match resolve fp with
      | none => .skip
      | some f =>
          -- os.Stat
          if f ∉ files then .skip
          else match tp.parseDate date with
            | none => .stop .parseDate
            | some expirationDate =>
                match tp.parseDuration ttl with
                | none => .stop .invalidTTL
                | some _ => if now - expirationDate > 0 then .remove f else .skip
  | _ => .skip

/-- The loop over the entries; `removes` says which removals succeed. -/
def cleanLoop [DecidableEq F] (tp : TimePkg) (resolve : Bytes → Option F) (now : ℤ)
    (removes : F → Bool) : List Bytes → Finset F → Finset F × Option CleanError
  | [], files => (files, none)
  | e :: es, files =>
      match verdict tp resolve now files e with
      | .skip => cleanLoop tp resolve now removes es files
      | .stop err => (files, some err)
      | .remove f =>
          if removes f then cleanLoop tp resolve now removes es (files.erase f)
          else (files, some .failedDeletion)

/-- `deleteFunc`: the files and the journal afterwards, and the error.  The journal is
emptied when it is larger than `limit`. -/
def deleteFunc [DecidableEq F] (tp : TimePkg) (resolve : Bytes → Option F) (now : ℤ)
    (removes : F → Bool) (limit : ℕ) (journal : Bytes) (files : Finset F) :
    Finset F × Bytes × Option CleanError :=
  match cleanLoop tp resolve now removes (journal.splitOn newline) files with
  | (files, some err) => (files, journal, some err)
  | (files, none) => (files, if journal.length > limit then [] else journal, none)

/-! ## Due and bad lines -/

/-- A well-formed line of file `f` whose date is before `now`. -/
def Due (tp : TimePkg) (resolve : Bytes → Option F) (now : ℤ) (entry : Bytes) (f : F) : Prop :=
  ∃ date ttl fp, entry.splitOn comma = [date, ttl, fp] ∧ resolve fp = some f ∧
    (∃ expirationDate, tp.parseDate date = some expirationDate ∧ expirationDate < now) ∧
    (tp.parseDuration ttl).isSome

/-- A line of file `f` whose date or duration cannot be read. -/
def Bad (tp : TimePkg) (resolve : Bytes → Option F) (entry : Bytes) (f : F) : Prop :=
  ∃ date ttl fp, entry.splitOn comma = [date, ttl, fp] ∧ resolve fp = some f ∧
    (tp.parseDate date = none ∨ tp.parseDuration ttl = none)

/-- Some of the entries calls for the removal of `f`. -/
def DueIn (tp : TimePkg) (resolve : Bytes → Option F) (now : ℤ) (es : List Bytes) (f : F) : Prop :=
  ∃ e ∈ es, Due tp resolve now e f

variable {tp : TimePkg} {resolve : Bytes → Option F} {now : ℤ} {e date ttl fp : Bytes} {f g : F}

/-- `Due` on the fields of a line. -/
theorem due_fields (hsplit : e.splitOn comma = [date, ttl, fp]) :
    Due tp resolve now e f ↔ resolve fp = some f ∧
      (∃ expirationDate, tp.parseDate date = some expirationDate ∧ expirationDate < now) ∧
      (tp.parseDuration ttl).isSome := by
  constructor
  · rintro ⟨date', ttl', fp', hsplit', h⟩
    rw [hsplit] at hsplit'
    cases hsplit'
    exact h
  · exact fun h => ⟨date, ttl, fp, hsplit, h⟩

/-- `Bad` on the fields of a line. -/
theorem bad_fields (hsplit : e.splitOn comma = [date, ttl, fp]) :
    Bad tp resolve e f ↔
      resolve fp = some f ∧ (tp.parseDate date = none ∨ tp.parseDuration ttl = none) := by
  constructor
  · rintro ⟨date', ttl', fp', hsplit', h⟩
    rw [hsplit] at hsplit'
    cases hsplit'
    exact h
  · exact fun h => ⟨date, ttl, fp, hsplit, h⟩

section Checks

variable [DecidableEq F]

def isDue (tp : TimePkg) (resolve : Bytes → Option F) (now : ℤ) (entry : Bytes) (f : F) : Bool :=
  match entry.splitOn comma with
  | [date, ttl, fp] =>
      decide (resolve fp = some f) && (tp.parseDate date).any (fun d => decide (d < now)) &&
        (tp.parseDuration ttl).isSome
  | _ => false

def isBad (tp : TimePkg) (resolve : Bytes → Option F) (entry : Bytes) (f : F) : Bool :=
  match entry.splitOn comma with
  | [date, ttl, fp] =>
      decide (resolve fp = some f) && ((tp.parseDate date).isNone || (tp.parseDuration ttl).isNone)
  | _ => false

theorem isDue_iff : isDue tp resolve now e f = true ↔ Due tp resolve now e f := by
  unfold isDue
  split
  case h_1 date ttl fp hsplit =>
    rw [due_fields hsplit]
    simp [Option.any_eq_true, and_assoc]
  case h_2 hno =>
    refine ⟨fun h => absurd h Bool.false_ne_true, ?_⟩
    rintro ⟨date, ttl, fp, hsplit, -⟩
    exact absurd hsplit (hno date ttl fp)

theorem isBad_iff : isBad tp resolve e f = true ↔ Bad tp resolve e f := by
  unfold isBad
  split
  case h_1 date ttl fp hsplit =>
    rw [bad_fields hsplit]
    simp
  case h_2 hno =>
    refine ⟨fun h => absurd h Bool.false_ne_true, ?_⟩
    rintro ⟨date, ttl, fp, hsplit, -⟩
    exact absurd hsplit (hno date ttl fp)

instance : Decidable (Due tp resolve now e f) := decidable_of_iff _ isDue_iff

instance : Decidable (Bad tp resolve e f) := decidable_of_iff _ isBad_iff

end Checks

/-- A line speaks of one file. -/
theorem due_unique (hf : Due tp resolve now e f) (hg : Due tp resolve now e g) : g = f := by
  obtain ⟨date, ttl, fp, hsplit, hres, -⟩ := hf
  exact Option.some.inj (((due_fields hsplit).1 hg).1.symm.trans hres)

/-- A line that cannot be read is not due. -/
theorem not_due_of_bad (hbad : Bad tp resolve e f) : ¬ Due tp resolve now e g := by
  obtain ⟨date, ttl, fp, hsplit, -, herr⟩ := hbad
  rw [due_fields hsplit]
  rintro ⟨-, ⟨d, hdate, -⟩, httl⟩
  rcases herr with h | h
  · rw [h] at hdate
    cases hdate
  · rw [h] at httl
    cases httl

/-- **What a round does** to the file of its line. -/
theorem verdict_cases [DecidableEq F] (tp : TimePkg) (resolve : Bytes → Option F) (now : ℤ)
    (files : Finset F) (e : Bytes) :
    (verdict tp resolve now files e = .skip ∧
        ∀ f ∈ files, ¬ Due tp resolve now e f ∧ ¬ Bad tp resolve e f) ∨
      (∃ f ∈ files, verdict tp resolve now files e = .remove f ∧ Due tp resolve now e f) ∨
      ∃ f ∈ files, (∃ err, verdict tp resolve now files e = .stop err) ∧ Bad tp resolve e f := by
  unfold verdict
  split
  case h_2 hno =>
    refine Or.inl ⟨rfl, fun f _ => ⟨?_, ?_⟩⟩
    · rintro ⟨date, ttl, fp, hsplit, -⟩
      exact hno date ttl fp hsplit
    · rintro ⟨date, ttl, fp, hsplit, -⟩
      exact hno date ttl fp hsplit
  case h_1 date ttl fp hsplit =>
    simp only [due_fields hsplit, bad_fields hsplit]
    cases hres : resolve fp with
    | none => exact Or.inl ⟨rfl, fun f _ => by simp⟩
    | some f =>
        by_cases hmem : f ∈ files
        · simp only [hmem, not_true_eq_false, if_false]
          cases hdate : tp.parseDate date with
          | none => exact Or.inr (Or.inr ⟨f, hmem, ⟨_, rfl⟩, rfl, Or.inl rfl⟩)
          | some d =>
              cases httl : tp.parseDuration ttl with
              | none => exact Or.inr (Or.inr ⟨f, hmem, ⟨_, rfl⟩, rfl, Or.inr rfl⟩)
              | some t =>
                  by_cases hpast : now - d > 0
                  · exact Or.inr (Or.inl ⟨f, hmem, if_pos hpast, rfl, ⟨d, rfl, by omega⟩, rfl⟩)
                  · refine Or.inl ⟨if_neg hpast, fun g _ => ⟨?_, by simp⟩⟩
                    rintro ⟨-, ⟨d', hd', hlt⟩, -⟩
                    rw [Option.some.injEq] at hd'
                    omega
        · -- os.Stat finds nothing
          simp only [hmem, not_false_eq_true, if_true]
          refine Or.inl ⟨trivial, fun g hg => ?_⟩
          have hne : some f ≠ some g := fun heq => hmem (Option.some.inj heq ▸ hg)
          exact ⟨fun h => hne h.1, fun h => hne h.1⟩

/-! ## The loop -/

/-- The loop stops at a line: it is bad, and its file has not been removed before. -/
def StopsAt (tp : TimePkg) (resolve : Bytes → Option F) (now : ℤ) (files : Finset F)
    (pre : List Bytes) (e : Bytes) : Prop :=
  ∃ f ∈ files, Bad tp resolve e f ∧ ¬ DueIn tp resolve now pre f

theorem dueIn_cons {es : List Bytes} :
    DueIn tp resolve now (e :: es) f ↔ Due tp resolve now e f ∨ DueIn tp resolve now es f := by
  unfold DueIn
  rw [List.exists_mem_cons_iff]

theorem dueIn_append {es es' : List Bytes} :
    DueIn tp resolve now (es ++ es') f ↔
      DueIn tp resolve now es f ∨ DueIn tp resolve now es' f := by
  unfold DueIn
  constructor
  · rintro ⟨x, hx, h⟩
    exact (List.mem_append.1 hx).imp (fun hm => ⟨x, hm, h⟩) fun hm => ⟨x, hm, h⟩
  · rintro (⟨x, hx, h⟩ | ⟨x, hx, h⟩)
    · exact ⟨x, List.mem_append_left _ hx, h⟩
    · exact ⟨x, List.mem_append_right _ hx, h⟩

/-- A round that goes on leaves the files that its line is not due for. -/
theorem round_cases [DecidableEq F] (tp : TimePkg) (resolve : Bytes → Option F) (now : ℤ)
    {removes : F → Bool} (hremove : ∀ f, removes f = true) (files : Finset F) (e : Bytes)
    (es : List Bytes) :
    (∃ err, cleanLoop tp resolve now removes (e :: es) files = (files, some err) ∧
        StopsAt tp resolve now files [] e) ∨
      ∃ files', cleanLoop tp resolve now removes (e :: es) files =
          cleanLoop tp resolve now removes es files' ∧
        (∀ f, f ∈ files' ↔ f ∈ files ∧ ¬ Due tp resolve now e f) ∧
        ∀ f ∈ files, ¬ Bad tp resolve e f := by
  rw [cleanLoop]
  rcases verdict_cases tp resolve now files e with ⟨hv, hnone⟩ | ⟨f, hmem, hv, hdue⟩ |
    ⟨f, hmem, ⟨err, hv⟩, hbad⟩
  · refine Or.inr ⟨files, by rw [hv], fun f => ?_, fun f hf => (hnone f hf).2⟩
    exact ⟨fun hf => ⟨hf, (hnone f hf).1⟩, And.left⟩
  · refine Or.inr ⟨files.erase f, ?_, fun g => ?_, fun g _ hbad => not_due_of_bad hbad hdue⟩
    · rw [hv]
      exact if_pos (hremove f)
    · rw [Finset.mem_erase]
      constructor
      · exact fun ⟨hne, hg⟩ => ⟨hg, fun h => hne (due_unique hdue h)⟩
      · rintro ⟨hg, hno⟩
        refine ⟨?_, hg⟩
        rintro rfl
        exact hno hdue
  · refine Or.inl ⟨err, by rw [hv], f, hmem, hbad, ?_⟩
    rintro ⟨x, hx, -⟩
    exact absurd hx List.not_mem_nil

/-- The same line stops the loop, seen from the files before and after a round. -/
theorem stopsAt_cons {files files' : Finset F} {pre : List Bytes} {e' : Bytes}
    (hfiles : ∀ f, f ∈ files' ↔ f ∈ files ∧ ¬ Due tp resolve now e f) :
    StopsAt tp resolve now files (e :: pre) e' ↔ StopsAt tp resolve now files' pre e' := by
  unfold StopsAt
  refine exists_congr fun f => ?_
  rw [hfiles, dueIn_cons, not_or]
  tauto

/-- **The loop works up to the first line that stops it.** -/
theorem cleanLoop_cases [DecidableEq F] (tp : TimePkg) (resolve : Bytes → Option F) (now : ℤ)
    {removes : F → Bool} (hremove : ∀ f, removes f = true) (es : List Bytes) (files : Finset F) :
    (∃ pre e post, es = pre ++ e :: post ∧ StopsAt tp resolve now files pre e ∧
        (∀ pre' e' post', es = pre' ++ e' :: post' → StopsAt tp resolve now files pre' e' →
          pre <+: pre') ∧
        ∀ f, f ∈ (cleanLoop tp resolve now removes es files).1 ↔
          f ∈ files ∧ ¬ DueIn tp resolve now pre f) ∨
      ((∀ pre e post, es = pre ++ e :: post → ¬ StopsAt tp resolve now files pre e) ∧
        ∀ f, f ∈ (cleanLoop tp resolve now removes es files).1 ↔
          f ∈ files ∧ ¬ DueIn tp resolve now es f) := by
  induction es generalizing files with
  | nil =>
      refine Or.inr ⟨fun pre e post h => absurd h (by simp), fun f => ?_⟩
      simp [cleanLoop, DueIn]
  | cons e es ih =>
      rcases round_cases tp resolve now hremove files e es with ⟨err, hloop, hstop⟩ |
        ⟨files', hloop, hfiles, hgood⟩
      · refine Or.inl ⟨[], e, es, rfl, hstop, fun pre' _ _ _ _ => List.nil_prefix, fun f => ?_⟩
        rw [hloop]
        simp [DueIn]
      · -- a split of the rest is one of the whole, one line further on
        rw [hloop]
        have hkept : ∀ (es' : List Bytes) (f : F), f ∈ files' ∧ ¬ DueIn tp resolve now es' f ↔
            f ∈ files ∧ ¬ DueIn tp resolve now (e :: es') f := by
          intro es' f
          rw [hfiles, dueIn_cons, not_or, and_assoc]
        have hsplits : ∀ pre' e' post', e :: es = pre' ++ e' :: post' →
            StopsAt tp resolve now files pre' e' →
            ∃ pre'', pre' = e :: pre'' ∧ es = pre'' ++ e' :: post' ∧
              StopsAt tp resolve now files' pre'' e' := by
          intro pre' e' post' heq hstop
          cases pre' with
          | nil =>
              obtain ⟨rfl, -⟩ := List.cons.inj heq
              obtain ⟨f, hf, hbad, -⟩ := hstop
              exact absurd hbad (hgood f hf)
          | cons x pre'' =>
              obtain ⟨rfl, hes⟩ := List.cons.inj heq
              exact ⟨pre'', rfl, hes, (stopsAt_cons hfiles).1 hstop⟩
        rcases ih files' with ⟨pre, e₀, post, hes, hstop, hfirst, hmem⟩ | ⟨hnone, hmem⟩
        · refine Or.inl
            ⟨e :: pre, e₀, post, by rw [hes]; rfl, (stopsAt_cons hfiles).2 hstop, ?_, ?_⟩
          · intro pre' e' post' heq hstop'
            obtain ⟨pre'', rfl, hes', hstop''⟩ := hsplits pre' e' post' heq hstop'
            exact List.prefix_cons_inj e |>.2 (hfirst pre'' e' post' hes' hstop'')
          · exact fun f => (hmem f).trans (hkept pre f)
        · refine Or.inr ⟨?_, fun f => (hmem f).trans (hkept es f)⟩
          intro pre' e' post' heq hstop'
          obtain ⟨pre'', -, hes', hstop''⟩ := hsplits pre' e' post' heq hstop'
          exact hnone pre'' e' post' hes' hstop''

theorem files_deleteFunc [DecidableEq F] (tp : TimePkg) (resolve : Bytes → Option F) (now : ℤ)
    (removes : F → Bool) (limit : ℕ) (journal : Bytes) (files : Finset F) :
    (deleteFunc tp resolve now removes limit journal files).1 =
      (cleanLoop tp resolve now removes (journal.splitOn newline) files).1 := by
  unfold deleteFunc
  split
  case h_1 heq => rw [heq]
  case h_2 heq => rw [heq]

/-- **A pass cleans exactly, up to bad lines.**  For every journal and every set of files,
if all removals succeed, a pass removes exactly the files named by due lines if and only if
no line stops it in front of a due line of a file that no earlier line is due for. -/
theorem clean_exact_iff [DecidableEq F] (tp : TimePkg) (resolve : Bytes → Option F) (now : ℤ)
    (removes : F → Bool) (limit : ℕ) (journal : Bytes) (files : Finset F)
    (hremove : ∀ f, removes f = true) :
    (∀ f, f ∈ (deleteFunc tp resolve now removes limit journal files).1 ↔
        f ∈ files ∧ ¬ DueIn tp resolve now (journal.splitOn newline) f) ↔
      ∀ pre e post, journal.splitOn newline = pre ++ e :: post →
        StopsAt tp resolve now files pre e →
        ∀ f ∈ files, DueIn tp resolve now post f → DueIn tp resolve now pre f := by
  rw [files_deleteFunc]
  rcases cleanLoop_cases tp resolve now hremove (journal.splitOn newline) files with
    ⟨pre, e, post, heq, hstop, hfirst, hmem⟩ | ⟨hnone, hmem⟩
  · constructor
    · intro hexact pre' e' post' heq' hstop' f hf hdue
      have hprefix := hfirst pre' e' post' heq' hstop'
      by_contra hno
      -- nothing before the stop is due for `f`, so the loop keeps it
      have hkept : f ∈ (cleanLoop tp resolve now removes (journal.splitOn newline) files).1 := by
        refine (hmem f).2 ⟨hf, fun ⟨x, hx, hx'⟩ => hno ⟨x, hprefix.subset hx, hx'⟩⟩
      refine ((hexact f).1 hkept).2 ?_
      rw [heq', dueIn_append, dueIn_cons]
      exact Or.inr (Or.inr hdue)
    · intro hcond f
      rw [hmem]
      refine and_congr_right fun hf => not_congr ?_
      rw [heq, dueIn_append, dueIn_cons]
      constructor
      · exact Or.inl
      · rintro (h | h | h)
        · exact h
        · obtain ⟨g, -, hbad, -⟩ := hstop
          exact absurd h (not_due_of_bad hbad)
        · exact hcond pre e post heq hstop f hf h
  · constructor
    · intro _ pre e post heq hstop
      exact absurd hstop (hnone pre e post heq)
    · exact fun _ => hmem

/-! ## Given journals -/

/-- A line of `path` that expired ten seconds after the epoch. -/
def expiredLine (path : Bytes) : Bytes :=
  ascii "Thu Jan  1 00:00:10 UTC 1970,10s," ++ path

def pathA : Bytes := ascii "/tmp/vanishling/uploads/a"
def pathB : Bytes := ascii "/tmp/vanishling/uploads/b"

theorem due_expiredLine_pathB : Due sampleTime some 20000000000 (expiredLine pathB) pathB :=
  ⟨ascii "Thu Jan  1 00:00:10 UTC 1970", ascii "10s", pathB, by decide +kernel, rfl,
    ⟨10000000000, by decide +kernel, by decide⟩, by decide +kernel⟩

/-- One file is due, the other one is not in the journal. -/
theorem clean_exact_iff_one :
    pathB ∉ (deleteFunc sampleTime some 20000000000 (fun _ => true) 1000
        (expiredLine pathB ++ [newline]) {pathA, pathB}).1 ∧
      ∀ f, f ∈ (deleteFunc sampleTime some 20000000000 (fun _ => true) 1000
          (expiredLine pathB ++ [newline]) {pathA, pathB}).1 ↔
        f ∈ ({pathA, pathB} : Finset Bytes) ∧
          ¬ DueIn sampleTime some 20000000000
            ((expiredLine pathB ++ [newline]).splitOn newline) f := by
  have hlines : (expiredLine pathB ++ [newline]).splitOn newline = [expiredLine pathB, []] := by
    decide +kernel
  refine ⟨by decide +kernel, (clean_exact_iff sampleTime some 20000000000 (fun _ => true) 1000
    (expiredLine pathB ++ [newline]) {pathA, pathB} fun _ => rfl).2 ?_⟩
  rintro pre e post heq ⟨f, -, hbad, -⟩
  rw [hlines] at heq
  have he : e ∈ [expiredLine pathB, []] := by
    rw [heq]
    exact List.mem_append_right _ (List.mem_cons_self ..)
  rcases List.mem_cons.1 he with rfl | he
  · exact absurd due_expiredLine_pathB (not_due_of_bad hbad)
  · obtain ⟨date, ttl, fp, hsplit, -⟩ := hbad
    rw [List.mem_singleton.1 he] at hsplit
    exact absurd (congrArg List.length hsplit) (by simp)

/-- A line torn by a crash, the line that was written next, and a line of another file. -/
def tornJournal : Bytes :=
  ascii "Thu Jan  1 00:0" ++ expiredLine pathA ++ [newline] ++
    expiredLine pathB ++ [newline]

/-- **A torn line stops the cleaning.**  The date of the glued line cannot be read, and its
file exists: the pass ends there, and the file of the next line, which is due, stays. -/
theorem torn_line_stops_cleaning :
    pathB ∈ (deleteFunc sampleTime some 20000000000 (fun _ => true) 1000 tornJournal
        {pathA, pathB}).1 ∧
      DueIn sampleTime some 20000000000 (tornJournal.splitOn newline) pathB :=
  ⟨by decide +kernel, expiredLine pathB, by decide +kernel, due_expiredLine_pathB⟩

end Vanishling
