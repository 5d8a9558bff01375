import GoExperiments.Vanishling.Cleaner
import Mathlib.Data.Nat.Digits.Lemmas

/-!
# Deletion before the time

`CommitJournal` writes the expiry of a file in the format `time.UnixDate`, which has no
fractions of a second, and `deleteFunc` compares the clock with what it reads.  So a file may
go up to a second before its time.  And a write that is cut short leaves a part of a line, which
becomes the beginning of the next one.

* `commits` — a sequence of calls of `CommitJournal`; `linesOf` — the lines that they leave, with
  what torn writes have put in front of them.
* `readsBack_iff` — the cleaner reads back the committed paths, in order, exactly when no torn
  write spoils a line.
* `removals` — what a pass removes, and when; `mem_deleteFunc_iff` says that these are the files
  that `deleteFunc` takes away.
* `removal_cases` — whatever a pass removes, a due line called for it, and the pass got that far.
* `no_early_deletion_iff` — the paths are read back and no pass removes a file before its time
  exactly when no torn write spoils a line and no expiry is written more than a nanosecond before
  the expiry of any commit of the same file.
* `deleted_early` — a file committed for ten seconds is gone after 9.7.
-/

namespace Vanishling

open Lines Go

/-! ## Committing -/

/-- A sequence of calls: the journal afterwards, and the calls that succeeded. -/
def commits (tp : TimePkg) : List Commit → Bytes → Bytes × List Commit
  | [], journal => (journal, [])
  | c :: cs, journal =>
      match commitJournal tp c journal with
      | (journal', some _) => commits tp cs journal'
      | (journal', none) => ((commits tp cs journal').1, c :: (commits tp cs journal').2)

/-- Entry by entry, the loop of `deleteFunc` comes across these paths, and the text behind the
last newline is no entry. -/
def ReadsBack (journal : Bytes) (paths : List Bytes) : Prop :=
  (journal.splitOn newline).map entryPath = paths.map some ++ [none]

/-- A line of the journal: what torn writes have left in front of it, and its call. -/
structure Line where
  rest : Bytes
  call : Commit

def Line.text (tp : TimePkg) (l : Line) : Bytes := l.rest ++ l.call.entry tp

/-- The lines that a sequence of calls writes behind `rest`, and the text behind the last
newline. -/
def linesOf (tp : TimePkg) : List Commit → Bytes → List Line × Bytes
  | [], rest => ([], rest)
  | c :: cs, rest =>
      if c.Succeeds tp then (⟨rest, c⟩ :: (linesOf tp cs []).1, (linesOf tp cs []).2)
      else linesOf tp cs (rest ++ c.torn tp)

/-- **No torn write spoils a line**: what is left in front of a line has no comma, and the text
behind the last newline has not three fields. -/
def NoneSpoilt (tp : TimePkg) (cs : List Commit) : Prop :=
  (∀ l ∈ (linesOf tp cs []).1, comma ∉ l.rest) ∧
    ((linesOf tp cs []).2.splitOn comma).length ≠ 3

/-! ## What the cleaner reads -/

/-- The calls look at nothing of the journal. -/
theorem commits_append (tp : TimePkg) (cs : List Commit) (front journal : Bytes) :
    commits tp cs (front ++ journal) =
      (front ++ (commits tp cs journal).1, (commits tp cs journal).2) := by
  induction cs generalizing journal with
  | nil => rfl
  | cons c cs ih =>
      rw [commits, commits]
      obtain ⟨hok, hfront⟩ | ⟨hno, err, hfront⟩ := commitJournal_cases tp c (front ++ journal)
      · obtain ⟨-, hcall⟩ | ⟨hno, -⟩ := commitJournal_cases tp c journal
        · rw [hfront, hcall]
          dsimp only
          rw [List.append_assoc, ih]
        · exact absurd hok hno
      · obtain ⟨hok, -⟩ | ⟨-, err', hcall⟩ := commitJournal_cases tp c journal
        · exact absurd hok hno
        · rw [hfront, hcall]
          dsimp only
          rw [List.append_assoc, ih]

theorem newline_not_mem_entry {tp : TimePkg} (hplain : tp.Plain) (c : Commit) :
    newline ∉ c.entry tp :=
  newline_not_mem_pathEntry hplain (path_plain c) c.now c.ttl

/-- **The journal in lines.**  One for every call that succeeded, in order, and behind the last
newline what torn writes have left since. -/
theorem commits_linesOf {tp : TimePkg} (hplain : tp.Plain) (cs : List Commit) {rest : Bytes}
    (hrest : newline ∉ rest) :
    (commits tp cs rest).1.splitOn newline =
        (linesOf tp cs rest).1.map (Line.text tp) ++ [(linesOf tp cs rest).2] ∧
      (commits tp cs rest).2 = (linesOf tp cs rest).1.map Line.call := by
  induction cs generalizing rest with
  | nil => exact ⟨List.splitOn_eq_singleton hrest, rfl⟩
  | cons c cs ih =>
      have hentry := newline_not_mem_entry hplain c
      rw [commits, linesOf]
      obtain ⟨hok, hcall⟩ | ⟨hno, err, hcall⟩ := commitJournal_cases tp c rest
      · -- the line ends what has been torn before
        have htext : newline ∉ rest ++ c.entry tp := fun h =>
          (List.mem_append.1 h).elim hrest hentry
        obtain ⟨hsplit, hcalls⟩ := ih List.not_mem_nil
        have hjournal : rest ++ c.line tp = rest ++ c.entry tp ++ newline :: [] := by
          rw [Commit.line, List.append_assoc]
        have hcommits := commits_append tp cs (rest ++ c.line tp) []
        rw [List.append_nil] at hcommits
        rw [hcall, if_pos hok]
        dsimp only
        rw [hcommits, hcalls, hjournal, List.append_assoc, List.cons_append, List.nil_append,
          List.splitOn_append_cons_self_of_not_mem htext, hsplit]
        exact ⟨rfl, rfl⟩
      · have htorn := newline_not_mem_torn hentry hno
        rw [hcall, if_neg hno]
        exact ih fun h => (List.mem_append.1 h).elim hrest htorn

/-- The fields of a line behind a rest without commas. -/
theorem splitOn_text {tp : TimePkg} (hplain : tp.Plain) {l : Line} (hrest : comma ∉ l.rest) :
    (l.text tp).splitOn comma =
      [l.rest ++ tp.formatDate l.call.expiry, tp.formatDuration l.call.ttl, l.call.path] := by
  have hdate : comma ∉ l.rest ++ tp.formatDate l.call.expiry := fun h =>
    (List.mem_append.1 h).elim hrest (hplain.date _).1
  unfold Line.text Commit.entry pathEntry
  rw [← List.append_assoc]
  exact (List.splitOn_append_cons_self_of_not_mem hdate _).trans
    (congrArg _ ((List.splitOn_append_cons_self_of_not_mem (hplain.duration _).1 _).trans
      (congrArg _ (List.splitOn_eq_singleton (path_plain l.call).1))))

/-- A comma in front makes a fourth field. -/
theorem length_splitOn_text {tp : TimePkg} (hplain : tp.Plain) {l : Line} (hrest : comma ∈ l.rest) :
    3 < ((l.text tp).splitOn comma).length := by
  obtain ⟨u, v, huv⟩ := List.append_of_mem hrest
  have hsplit := splitOn_pathEntry hplain (path_plain l.call) l.call.now l.call.ttl
  have hu : 0 < (u.splitOn comma).length := List.length_pos_iff.2 (List.splitOn_ne_nil comma u)
  rw [Line.text, huv, List.append_assoc, List.cons_append, List.splitOn_append_cons_self,
    List.length_append, splitOn_append, Commit.entry, hsplit, List.length_append]
  simp only [List.modifyHead_cons, List.length_cons, List.length_nil]
  omega

theorem entryPath_text {tp : TimePkg} (hplain : tp.Plain) (l : Line) :
    entryPath (l.text tp) = some l.call.path ↔ comma ∉ l.rest := by
  constructor
  · intro h hrest
    have hlen := length_splitOn_text hplain hrest
    rw [entryPath_eq_none_iff.2 (by omega)] at h
    cases h
  · intro hrest
    rw [entryPath, splitOn_text hplain hrest]

/-- **The committed paths are read back in order**, unless torn writes are in the way. -/
theorem readsBack_iff {tp : TimePkg} (hplain : tp.Plain) (cs : List Commit) :
    ReadsBack (commits tp cs []).1 ((commits tp cs []).2.map Commit.path) ↔ NoneSpoilt tp cs := by
  obtain ⟨hsplit, hcalls⟩ := commits_linesOf hplain cs List.not_mem_nil
  unfold ReadsBack NoneSpoilt
  rw [hsplit, hcalls, List.map_append, List.map_map, List.map_map, List.map_map]
  constructor
  · intro h
    obtain ⟨hlines, hlast⟩ := List.append_inj' h rfl
    refine ⟨fun l hl => ?_, entryPath_eq_none_iff.1 (List.cons.inj hlast).1⟩
    exact (entryPath_text hplain l).1 (List.map_inj_left.1 hlines l hl)
  · rintro ⟨hlines, hlast⟩
    refine congrArg₂ _ (List.map_inj_left.2 fun l hl => ?_) ?_
    · exact (entryPath_text hplain l).2 (hlines l hl)
    · exact congrArg (· :: []) (entryPath_eq_none_iff.2 hlast)

/-- Where nothing is torn, every call that succeeds has its line for itself. -/
theorem linesOf_of_untorn {tp : TimePkg} {cs : List Commit}
    (h : ∀ c ∈ cs, ¬ c.Succeeds tp → c.torn tp = []) :
    linesOf tp cs [] = ((cs.filter fun c => c.Succeeds tp).map (Line.mk []), []) := by
  induction cs with
  | nil => rfl
  | cons c cs ih =>
      obtain ⟨hc, hcs⟩ := List.forall_mem_cons.1 h
      rw [linesOf]
      by_cases hok : c.Succeeds tp
      · rw [if_pos hok, ih hcs, List.filter_cons_of_pos (by simpa using hok)]
        rfl
      · rw [if_neg hok, hc hok, List.append_nil, ih hcs,
          List.filter_cons_of_neg (by simpa using hok)]

/-! ## What the cleaner removes -/

section Passes

variable {F : Type*} [DecidableEq F]

/-- The removals of the loop of `deleteFunc`, with their times.  The clock is read again in every
round. -/
def removals (tp : TimePkg) (resolve : Bytes → Option F) (removes : F → Bool) :
    (ℕ → ℤ) → List Bytes → Finset F → List (F × ℤ)
  | _, [], _ => []
  | clock, e :: es, files =>
      match verdict tp resolve (clock 0) files e with
      | .skip => removals tp resolve removes (fun i => clock (i + 1)) es files
      | .stop _ => []
      | .remove f =>
          if removes f then
            (f, clock 0) :: removals tp resolve removes (fun i => clock (i + 1)) es (files.erase f)
          else []

/-- The removals of a pass. -/
def passRemovals (tp : TimePkg) (resolve : Bytes → Option F) (removes : F → Bool) (clock : ℕ → ℤ)
    (journal : Bytes) (files : Finset F) : List (F × ℤ) :=
  removals tp resolve removes clock (journal.splitOn newline) files

variable {tp : TimePkg} {resolve : Bytes → Option F} {removes : F → Bool} {now : ℤ} {f : F}

/-- While the clock stands still, these are the files that `cleanLoop` takes away. -/
theorem mem_cleanLoop_iff {es : List Bytes} {files : Finset F} :
    f ∈ (cleanLoop tp resolve now removes es files).1 ↔
      f ∈ files ∧ ∀ t, (f, t) ∉ removals tp resolve removes (fun _ => now) es files := by
  induction es generalizing files with
  | nil => simp [cleanLoop, removals]
  | cons e es ih =>
      rw [cleanLoop, removals]
      cases verdict tp resolve now files e with
      | skip => exact ih
      | stop err => simp
      | remove g =>
          dsimp only
          by_cases hremove : removes g = true
          · rw [if_pos hremove, if_pos hremove, ih, Finset.mem_erase, and_comm (a := f ≠ g),
              and_assoc]
            simp only [List.mem_cons, Prod.mk.injEq, not_or, forall_and]
            refine and_congr_right fun _ => and_congr ?_ Iff.rfl
            exact ⟨fun hne t h => hne h.1, fun h heq => h now ⟨heq, rfl⟩⟩
          · rw [if_neg hremove, if_neg hremove]
            simp

/-- So the removals are those of `deleteFunc`. -/
theorem mem_deleteFunc_iff {limit : ℕ} {journal : Bytes} {files : Finset F} :
    f ∈ (deleteFunc tp resolve now removes limit journal files).1 ↔
      f ∈ files ∧ ∀ t, (f, t) ∉ passRemovals tp resolve removes (fun _ => now) journal files := by
  rw [files_deleteFunc]
  exact mem_cleanLoop_iff

/-- **A removal has a due line**, and the loop has got there: no line in front of it stops it. -/
theorem removal_cases {clock : ℕ → ℤ} {es : List Bytes} {files : Finset F} {t : ℤ}
    (h : (f, t) ∈ removals tp resolve removes clock es files) :
    f ∈ files ∧ ∃ pre e post, es = pre ++ e :: post ∧ Due tp resolve t e f ∧
      ∀ e' ∈ pre, ¬ Bad tp resolve e' f := by
  induction es generalizing clock files with
  | nil => exact absurd h List.not_mem_nil
  | cons e es ih =>
      rw [removals] at h
      -- a round that leaves `f` there is put in front of the rounds to come
      have hcons : ∀ {files' : Finset F}, (f ∈ files' → f ∈ files ∧ ¬ Bad tp resolve e f) →
          (f, t) ∈ removals tp resolve removes (fun i => clock (i + 1)) es files' →
          f ∈ files ∧ ∃ pre e₀ post, e :: es = pre ++ e₀ :: post ∧ Due tp resolve t e₀ f ∧
            ∀ e' ∈ pre, ¬ Bad tp resolve e' f := by
        intro files' hround hlater
        obtain ⟨hf', pre, e₀, post, rfl, hdue, hpre⟩ := ih hlater
        obtain ⟨hf, hgood⟩ := hround hf'
        exact ⟨hf, e :: pre, e₀, post, rfl, hdue, List.forall_mem_cons.2 ⟨hgood, hpre⟩⟩
      rcases verdict_cases tp resolve (clock 0) files e with ⟨hv, hnone⟩ | ⟨g, hmem, hv, hdue⟩ |
        ⟨g, hmem, ⟨err, hv⟩, hbad⟩
      · rw [hv] at h
        exact hcons (fun hf => ⟨hf, (hnone f hf).2⟩) h
      · rw [hv] at h
        dsimp only at h
        split_ifs at h with hremove
        · obtain heq | h := List.mem_cons.1 h
          · obtain ⟨rfl, rfl⟩ := Prod.mk.inj heq
            exact ⟨hmem, [], e, es, rfl, hdue, fun _ h => absurd h List.not_mem_nil⟩
          · refine hcons (fun hf => ⟨Finset.mem_of_mem_erase hf, fun hbad => ?_⟩) h
            exact not_due_of_bad hbad hdue
        · exact absurd h List.not_mem_nil
      · rw [hv] at h
        exact absurd h List.not_mem_nil

/-- A file alone is removed by a due line that the loop gets to. -/
theorem removal_alone {pre post : List Bytes} {e : Bytes} (hdue : Due tp resolve now e f)
    (hpre : ∀ e' ∈ pre, ¬ Bad tp resolve e' f) :
    (f, now) ∈ removals tp resolve (fun _ => true) (fun _ => now) (pre ++ e :: post) {f} := by
  induction pre with
  | nil =>
      rw [List.nil_append, removals]
      rcases verdict_cases tp resolve now {f} e with ⟨-, hnone⟩ | ⟨g, hg, hv, -⟩ |
        ⟨g, hg, -, hbad⟩
      · exact absurd hdue (hnone f (Finset.mem_singleton_self f)).1
      · rw [hv, Finset.mem_singleton.1 hg]
        exact List.mem_cons_self
      · exact absurd hdue (not_due_of_bad hbad)
  | cons x pre ih =>
      obtain ⟨hx, hpre⟩ := List.forall_mem_cons.1 hpre
      rw [List.cons_append, removals]
      rcases verdict_cases tp resolve now {f} x with ⟨hv, -⟩ | ⟨g, hg, hv, -⟩ | ⟨g, hg, -, hbad⟩
      · rw [hv]
        exact ih hpre
      · rw [hv, Finset.mem_singleton.1 hg]
        exact List.mem_cons_self
      · rw [Finset.mem_singleton.1 hg] at hbad
        exact absurd hbad hx

end Passes

/-! ## Expiry -/

/-- Dates are written without the fractions of a second. -/
def TimePkg.Truncates (tp : TimePkg) : Prop :=
  ∀ t, tp.parseDate (tp.formatDate t) = some (t - t % second)

/-- The expiry as the journal has it. -/
def Commit.written (c : Commit) : ℤ := c.expiry - c.expiry % second

namespace Line

/-- The date that is read from a line: the written one, if nothing is in front of it. -/
def date (tp : TimePkg) (l : Line) : Option ℤ :=
  if l.rest = [] then some l.call.written
  else tp.parseDate (l.rest ++ tp.formatDate l.call.expiry)

/-- The date and the duration on the line can be read. -/
def Readable (tp : TimePkg) (l : Line) : Prop :=
  (l.date tp).isSome = true ∧ (tp.parseDuration (tp.formatDuration l.call.ttl)).isSome = true

end Line

/-! ## A given clock -/

/-- A number with its sign. -/
def numeral (n : ℤ) : Bytes :=
  (if n < 0 then 0x2D else 0x2B) ::
    (Nat.digits 10 n.natAbs).reverse.map fun d => UInt8.ofNat (0x30 + d)

def ofNumeral : Bytes → Option ℤ
  | [] => none
  | sign :: ds =>
      let n : ℕ := Nat.ofDigits 10 (ds.reverse.map fun b => b.toNat - 0x30)
      some (if sign = 0x2D then -(n : ℤ) else n)

theorem ofNumeral_numeral (n : ℤ) : ofNumeral (numeral n) = some n := by
  have hdigits : ((Nat.digits 10 n.natAbs).reverse.map fun d => UInt8.ofNat (0x30 + d)).reverse.map
      (fun b => b.toNat - 0x30) = Nat.digits 10 n.natAbs := by
    rw [← List.map_reverse, List.reverse_reverse, List.map_map]
    conv_rhs => rw [← List.map_id (Nat.digits 10 n.natAbs)]
    refine List.map_congr_left fun d hd => ?_
    have hlt : d < 10 := Nat.digits_lt_base (by decide) hd
    simp only [Function.comp, UInt8.toNat_ofNat', id]
    omega
  unfold numeral ofNumeral
  simp only [hdigits, Nat.ofDigits_digits]
  by_cases hneg : n < 0
  · simp only [if_pos hneg, if_true]
    rw [Option.some.injEq]
    omega
  · simp only [if_neg hneg]
    rw [if_neg (by decide), Option.some.injEq]
    omega

theorem mem_numeral {n : ℤ} {b : UInt8} (h : b ∈ numeral n) :
    b = 0x2D ∨ b = 0x2B ∨ 0x30 ≤ b := by
  obtain rfl | h := List.mem_cons.1 h
  · by_cases hneg : n < 0
    · exact .inl (if_pos hneg)
    · exact .inr (.inl (if_neg hneg))
  · obtain ⟨d, hd, rfl⟩ := List.mem_map.1 h
    have hlt : d < 10 := Nat.digits_lt_base (by decide) (List.mem_reverse.1 hd)
    refine .inr (.inr ?_)
    rw [UInt8.le_iff_toNat_le, UInt8.toNat_ofNat']
    simp only [UInt8.reduceToNat]
    omega

theorem numeral_plain (n : ℤ) : PlainPath (numeral n) :=
  ⟨fun h => absurd (mem_numeral h) (by decide), fun h => absurd (mem_numeral h) (by decide)⟩

/-- A time package that writes dates as whole seconds. -/
def secondsTime : TimePkg where
  formatDate t := numeral (t / second)
  formatDuration d := numeral d
  parseDate b := (ofNumeral b).map (· * second)
  parseDuration := ofNumeral

theorem secondsTime_plain : secondsTime.Plain :=
  ⟨fun t => numeral_plain (t / second), fun d => numeral_plain d⟩

theorem secondsTime_truncates : secondsTime.Truncates := by
  intro t
  simp only [secondsTime, ofNumeral_numeral, Option.map_some, second, Option.some.injEq]
  omega

/-- A file committed for ten seconds. -/
def tenSeconds (now : ℤ) : Commit where
  now := now
  ttl := 10 * second
  storageDir := defaultStoragePath
  upFile := Digest.checksum ⟨List.replicate 32 0, rfl⟩
  opens := true
  n := 1000
  storageDir_plain := ⟨by decide +kernel, by decide +kernel⟩
  upFile_hashed := .inr ⟨_, rfl⟩

/-! ## No early deletion -/

section Expiry

variable {F : Type*} {tp : TimePkg} {resolve : Bytes → Option F} {now : ℤ} {f : F} {l : Line}

theorem parseDate_line (htrunc : tp.Truncates) (l : Line) :
    tp.parseDate (l.rest ++ tp.formatDate l.call.expiry) = l.date tp := by
  unfold Line.date
  split_ifs with hrest
  · rw [hrest, List.nil_append, htrunc]
    rfl
  · rfl

theorem due_line (hplain : tp.Plain) (htrunc : tp.Truncates) (hrest : comma ∉ l.rest) :
    Due tp resolve now (l.text tp) f ↔
      resolve l.call.path = some f ∧ (∃ d, l.date tp = some d ∧ d < now) ∧ l.Readable tp := by
  rw [due_fields (splitOn_text hplain hrest), parseDate_line htrunc, Line.Readable]
  refine and_congr_right fun _ => ⟨?_, fun h => ⟨h.1, h.2.2⟩⟩
  rintro ⟨⟨d, hd, hlt⟩, hdur⟩
  exact ⟨⟨d, hd, hlt⟩, by rw [hd]; rfl, hdur⟩

theorem bad_line (hplain : tp.Plain) (htrunc : tp.Truncates) (hrest : comma ∉ l.rest) :
    Bad tp resolve (l.text tp) f ↔ resolve l.call.path = some f ∧ ¬ l.Readable tp := by
  rw [bad_fields (splitOn_text hplain hrest), parseDate_line htrunc, Line.Readable, not_and_or,
    Option.not_isSome_iff_eq_none, Option.not_isSome_iff_eq_none]

/-- A pass on file `f` alone gets to the line `l`. -/
def Reached (tp : TimePkg) (resolve : Bytes → Option F) (ls : List Line) (f : F) (l : Line) :
    Prop :=
  ∃ pre post, ls = pre ++ l :: post ∧ resolve l.call.path = some f ∧ l.Readable tp ∧
    ∀ l' ∈ pre, resolve l'.call.path = some f → l'.Readable tp

/-- What removes `f` is a line that is reached. -/
theorem reached_of_removal [DecidableEq F] (hplain : tp.Plain) (htrunc : tp.Truncates)
    {ls : List Line} {tail : Bytes} (hlines : ∀ l ∈ ls, comma ∉ l.rest)
    (htail : (tail.splitOn comma).length ≠ 3) {removes : F → Bool} {clock : ℕ → ℤ}
    {files : Finset F} {t : ℤ}
    (h : (f, t) ∈ removals tp resolve removes clock (ls.map (Line.text tp) ++ [tail]) files) :
    ∃ l d, Reached tp resolve ls f l ∧ l.date tp = some d ∧ d < t := by
  obtain ⟨-, pre, e, post, heq, hdue, hpre⟩ := removal_cases h
  obtain rfl | ⟨post, last, rfl⟩ := List.eq_nil_or_concat' post
  · -- the text behind the last newline is no line
    obtain ⟨-, hlast⟩ := List.append_inj' heq rfl
    obtain rfl := (List.cons.inj hlast).1
    obtain ⟨_, _, _, hsplit, -⟩ := hdue
    rw [hsplit] at htail
    exact absurd rfl htail
  · rw [← List.cons_append, ← List.append_assoc] at heq
    obtain ⟨heq, -⟩ := List.append_inj' heq rfl
    obtain ⟨ls₁, ls₂, rfl, rfl, hls₂⟩ := List.map_eq_append_iff.1 heq
    obtain ⟨l, ls₂, rfl, rfl, -⟩ := List.map_eq_cons_iff.1 hls₂
    have hl : comma ∉ l.rest := hlines l (List.mem_append_right _ List.mem_cons_self)
    obtain ⟨hres, ⟨d, hd, hlt⟩, hread⟩ := (due_line hplain htrunc hl).1 hdue
    refine ⟨l, d, ⟨ls₁, ls₂, rfl, hres, hread, fun l' hl' hres' => ?_⟩, hd, hlt⟩
    by_contra hno
    have hrest : comma ∉ l'.rest := hlines l' (List.mem_append_left _ hl')
    exact hpre _ (List.mem_map_of_mem hl') ((bad_line hplain htrunc hrest).2 ⟨hres', hno⟩)

/-- A pass over a file alone, at the first nanosecond at which a line is due that it gets to. -/
theorem removal_of_reached [DecidableEq F] (hplain : tp.Plain) (htrunc : tp.Truncates)
    {ls : List Line} (hlines : ∀ l ∈ ls, comma ∉ l.rest) (tail : Bytes)
    (h : Reached tp resolve ls f l) {d : ℤ} (hd : l.date tp = some d) :
    (f, d + 1) ∈ removals tp resolve (fun _ => true) (fun _ => d + 1)
      (ls.map (Line.text tp) ++ [tail]) {f} := by
  obtain ⟨pre, post, rfl, hres, hread, hpre⟩ := h
  have hl : comma ∉ l.rest := hlines l (List.mem_append_right _ List.mem_cons_self)
  rw [List.map_append, List.map_cons, List.append_assoc, List.cons_append]
  refine removal_alone ((due_line hplain htrunc hl).2 ⟨hres, ⟨d, hd, by omega⟩, hread⟩) ?_
  intro e he hbad
  obtain ⟨l₀, hl₀, rfl⟩ := List.mem_map.1 he
  have hrest : comma ∉ l₀.rest := hlines l₀ (List.mem_append_left _ hl₀)
  obtain ⟨hres₀, hno⟩ := (bad_line hplain htrunc hrest).1 hbad
  exact hno (hpre l₀ hl₀ hres₀)

/-- **No deletion before the time.** -/
theorem no_early_deletion_iff [DecidableEq F] (tp : TimePkg) (hplain : tp.Plain)
    (htrunc : tp.Truncates) (resolve : Bytes → Option F) (cs : List Commit) :
    (ReadsBack (commits tp cs []).1 ((commits tp cs []).2.map Commit.path) ∧
      ∀ (removes : F → Bool) (clock : ℕ → ℤ) (files : Finset F) (f : F) (t : ℤ),
        (f, t) ∈ passRemovals tp resolve removes clock (commits tp cs []).1 files →
        ∀ c ∈ (commits tp cs []).2, resolve c.path = some f → c.expiry ≤ t) ↔
    (NoneSpoilt tp cs ∧
      ∀ f l d, Reached tp resolve (linesOf tp cs []).1 f l → l.date tp = some d →
        ∀ l' ∈ (linesOf tp cs []).1, resolve l'.call.path = some f → l'.call.expiry ≤ d + 1) := by
  rw [readsBack_iff hplain]
  refine and_congr_right fun hspoilt => ?_
  obtain ⟨hlines, htail⟩ := hspoilt
  obtain ⟨hsplit, hcalls⟩ := commits_linesOf hplain cs List.not_mem_nil
  simp only [passRemovals, hsplit, hcalls]
  constructor
  · intro h f l d hreached hd l' hl' hres'
    have hgone := removal_of_reached hplain htrunc hlines (linesOf tp cs []).2 hreached hd
    exact h _ _ _ f (d + 1) hgone l'.call (List.mem_map_of_mem hl') hres'
  · intro h removes clock files f t hgone c hc hres
    obtain ⟨l', hl', rfl⟩ := List.mem_map.1 hc
    obtain ⟨l, d, hreached, hd, hlt⟩ := reached_of_removal hplain htrunc hlines htail hgone
    have hle := h f l d hreached hd l' hl' hres
    omega

end Expiry

/-- Committed at a whole second, no pass removes it too early. -/
theorem whole_second_in_time :
    ReadsBack (commits secondsTime [tenSeconds 0] []).1
        ((commits secondsTime [tenSeconds 0] []).2.map Commit.path) ∧
      ∀ (removes : Bytes → Bool) (clock : ℕ → ℤ) (files : Finset Bytes) (f : Bytes) (t : ℤ),
        (f, t) ∈ passRemovals secondsTime some removes clock
          (commits secondsTime [tenSeconds 0] []).1 files →
        ∀ c ∈ (commits secondsTime [tenSeconds 0] []).2, some c.path = some f → c.expiry ≤ t := by
  have hok : (tenSeconds 0).Succeeds secondsTime := by decide +kernel
  have hlines : linesOf secondsTime [tenSeconds 0] [] = ([⟨[], tenSeconds 0⟩], []) := by
    have huntorn : ∀ c ∈ [tenSeconds 0], ¬ c.Succeeds secondsTime → c.torn secondsTime = [] := by
      intro c hc hno
      rw [List.mem_singleton.1 hc] at hno
      exact absurd hok hno
    rw [linesOf_of_untorn huntorn]
    simp [hok]
  refine (no_early_deletion_iff secondsTime secondsTime_plain secondsTime_truncates some
    [tenSeconds 0]).2 ⟨?_, ?_⟩
  · unfold NoneSpoilt
    rw [hlines]
    decide
  · rw [hlines]
    rintro f l d ⟨pre, post, heq, -⟩ hd l' hl' -
    dsimp only at heq hl'
    have hl : l ∈ [(⟨[], tenSeconds 0⟩ : Line)] := by
      rw [heq]
      simp
    rw [List.mem_singleton.1 hl] at hd
    rw [List.mem_singleton.1 hl', ← Option.some.inj hd]
    decide

/-- A write cut short behind the date: the line of the next call is no entry any more. -/
example : ((commits secondsTime [{ tenSeconds 0 with n := 8 }, tenSeconds 0] []).1.splitOn
    newline).map entryPath = [none, none] := by
  decide +kernel

/-- Committed half a second after the epoch, the file is gone 9.7 seconds later. -/
theorem deleted_early :
    (commitJournal secondsTime (tenSeconds 500000000) []).2 = none ∧
      ((tenSeconds 500000000).path, 10200000000) ∈ passRemovals secondsTime some (fun _ => true)
        (fun _ => 10200000000) (commits secondsTime [tenSeconds 500000000] []).1
        {(tenSeconds 500000000).path} ∧
      10200000000 < (tenSeconds 500000000).expiry := by
  decide +kernel

end Vanishling
