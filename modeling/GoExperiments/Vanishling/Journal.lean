import Mathlib.Data.Int.Basic
import GoExperiments.Lib.GoBasic
import GoExperiments.Lib.Lines
import GoExperiments.Lib.Path

/-!
# The journal

Every upload is to leave a line `expiry,ttl,path` in the journal, from which the cleaner
learns when to delete the file.  A file is stored under the hexadecimal hash of its
contents.

* `TimePkg` — the part of Go's `time` package that writes and reads the first two fields;
  `TimePkg.Plain` is all the development needs to know about the written form.
* `uploadTTL` — the time to live that a request asks for.
* `pathEntry`, `entryText` — what `CommitJournal` writes, the newline aside.
* `names_entryText` — the line names the stored file; `names_append` — a line that begins
  with the torn rest of another one names no other file.
* `commitJournal` — one call of `CommitJournal`, with its errors.  A write that fails may
  leave a part of the line behind.
* `commitJournal_cases` — what a call leaves in the journal, and when it succeeds.
-/

namespace Vanishling

open Lines Go

def comma : UInt8 := 0x2C
def newline : UInt8 := 0x0A

/-! ## Times -/

/-- Go's `time` package, as far as the journal uses it: times are in nanoseconds since the
epoch, durations in nanoseconds, and `none` is an error. -/
structure TimePkg where
  /-- `Time.Format(time.UnixDate)` -/
  formatDate : ℤ → Bytes
  /-- `Duration.String`, which `%v` calls -/
  formatDuration : ℤ → Bytes
  /-- `time.Parse(time.UnixDate, ·)` -/
  parseDate : Bytes → Option ℤ
  /-- `time.ParseDuration` -/
  parseDuration : Bytes → Option ℤ

/-- Dates and durations are written without commas and newlines. -/
structure TimePkg.Plain (tp : TimePkg) : Prop where
  date : ∀ t, comma ∉ tp.formatDate t ∧ newline ∉ tp.formatDate t
  duration : ∀ d, comma ∉ tp.formatDuration d ∧ newline ∉ tp.formatDuration d

/-- `cfg.DefaultFileTTL`, five minutes. -/
def defaultFileTTL : ℤ := 5 * 60 * 1000000000

/-- One hour; `t.Hours() > cfg.DefaultMaxTTLHours` compares with it. -/
def maxTTL : ℤ := 60 * 60 * 1000000000

/-- The time to live of an upload, from the `x-ttl` header (empty if it is absent). -/
def uploadTTL (tp : TimePkg) (header : Bytes) : ℤ :=
  if header = [] then defaultFileTTL
  else match tp.parseDuration header with
    | none => defaultFileTTL
    | some t => if t > maxTTL then defaultFileTTL else t

/-! ## File names -/

/-- A hash value of `highwayhash`. -/
structure Digest where
  bytes : Bytes
  size : bytes.length = 32
  deriving DecidableEq

/-- The name of a file: its `checksum`. -/
def Digest.checksum (d : Digest) : Bytes := hexEncode d.bytes

/-- `cfg.DefaultStoragePath`. -/
def defaultStoragePath : Bytes := ascii "/tmp/vanishling/uploads"

/-- `filepath.Join` of the storage path with a name without slashes. -/
def joinStorage (name : Bytes) : Bytes :=
  if name = [] then defaultStoragePath else defaultStoragePath ++ GoPath.slash :: name

/-- A checksum holds neither comma nor newline. -/
theorem checksum_plain (d : Digest) : comma ∉ d.checksum ∧ newline ∉ d.checksum := by
  constructor
  · intro h
    exact absurd (le_of_mem_hexEncode h) (by decide)
  · intro h
    exact absurd (le_of_mem_hexEncode h) (by decide)

theorem checksum_ne_nil (d : Digest) : d.checksum ≠ [] := by
  intro h
  have hlen := length_hexEncode d.bytes
  unfold Digest.checksum at h
  rw [h, d.size] at hlen
  cases hlen

/-- A path that the journal can hold. -/
def PlainPath (path : Bytes) : Prop := comma ∉ path ∧ newline ∉ path

theorem plainPath_joinStorage {name : Bytes} (h : comma ∉ name ∧ newline ∉ name) :
    PlainPath (joinStorage name) := by
  have hdir : comma ∉ defaultStoragePath ∧ newline ∉ defaultStoragePath := by decide +kernel
  unfold PlainPath joinStorage
  by_cases hname : name = []
  · simp only [if_pos hname]
    exact hdir
  · simp only [if_neg hname, List.mem_append, List.mem_cons, not_or]
    exact ⟨⟨hdir.1, by decide, h.1⟩, hdir.2, by decide, h.2⟩

theorem joinStorage_ne_nil (name : Bytes) : joinStorage name ≠ [] := by
  have hdir : defaultStoragePath ≠ [] := by decide +kernel
  unfold joinStorage
  split_ifs
  · exact hdir
  · exact List.append_ne_nil_of_left_ne_nil hdir _

/-- A stored file is not the storage directory. -/
theorem joinStorage_ne_dir {name : Bytes} (h : name ≠ []) :
    joinStorage name ≠ defaultStoragePath := by
  intro heq
  have hlen := congrArg List.length heq
  unfold joinStorage at hlen
  rw [if_neg h, List.length_append, List.length_cons] at hlen
  omega

/-- The elements of `cfg.DefaultStoragePath`. -/
def storageParts : List Bytes :=
  [ascii "tmp", ascii "vanishling", ascii "uploads"]

theorem ordinary_checksum (d : Digest) : GoPath.Ordinary d.checksum := by
  have hle : ∀ b ∈ d.checksum, 0x30 ≤ b := fun b hb => le_of_mem_hexEncode hb
  refine ⟨checksum_ne_nil d, fun h => ?_, fun h => ?_, fun h => ?_⟩
  · exact absurd (hle 0x2E (by rw [h]; decide)) (by decide)
  · exact absurd (hle 0x2E (by rw [h]; decide)) (by decide)
  · exact absurd (hle _ h) (by decide)

theorem storage_eq :
    defaultStoragePath = GoPath.slash :: [GoPath.slash].intercalate storageParts := by
  decide +kernel

/-- The storage directory of the configuration is clean. -/
theorem clean_storage : GoPath.clean defaultStoragePath = defaultStoragePath := by
  have hparts : ∀ p ∈ storageParts, GoPath.Ordinary p := by decide +kernel
  rw [storage_eq]
  exact GoPath.clean_eq_self hparts (by simp [storageParts])

theorem rooted_storage : GoPath.rooted defaultStoragePath = true := by
  rw [storage_eq]
  rfl

theorem join_checksum (d : Digest) :
    GoPath.join [defaultStoragePath, d.checksum] = joinStorage d.checksum := by
  have hne : defaultStoragePath ≠ [GoPath.slash] := by decide +kernel
  rw [GoPath.join_ordinary rooted_storage clean_storage (ordinary_checksum d), GoPath.entry,
    if_neg hne, joinStorage, if_neg (checksum_ne_nil d)]

/-! ## Lines -/

/-- What `CommitJournal` writes for a path, up to the newline. -/
def pathEntry (tp : TimePkg) (now ttl : ℤ) (path : Bytes) : Bytes :=
  tp.formatDate (now + ttl) ++ comma :: (tp.formatDuration ttl ++ comma :: path)

/-- The same for an upload. -/
def entryText (tp : TimePkg) (now ttl : ℤ) (upFile : Bytes) : Bytes :=
  pathEntry tp now ttl (joinStorage upFile)

/-- The line that `CommitJournal` appends. -/
def journalLine (tp : TimePkg) (now ttl : ℤ) (upFile : Bytes) : Bytes :=
  entryText tp now ttl upFile ++ [newline]

/-- The lines of a journal that a newline ends. -/
def completeLines (journal : Bytes) : List Bytes := complete newline journal

/-- The three fields of a line, the last of which is the path. -/
def Names (line path : Bytes) : Prop := ∃ date ttl, line.splitOn comma = [date, ttl, path]

/-- The path of a line that has three fields. -/
def entryPath (line : Bytes) : Option Bytes :=
  match line.splitOn comma with
  | [_, _, fp] => some fp
  | _ => none

theorem entryPath_eq_some_iff {line path : Bytes} :
    entryPath line = some path ↔ Names line path := by
  unfold entryPath Names
  constructor
  · intro h
    split at h
    case h_1 date ttl fp hsplit =>
      cases h
      exact ⟨date, ttl, hsplit⟩
    case h_2 => cases h
  · rintro ⟨date, ttl, hsplit⟩
    rw [hsplit]

/-- Only three fields make an entry. -/
theorem entryPath_eq_none_iff {line : Bytes} :
    entryPath line = none ↔ (line.splitOn comma).length ≠ 3 := by
  unfold entryPath
  split
  case h_1 date ttl fp hsplit => simp [hsplit]
  case h_2 hno =>
    refine ⟨fun _ hlen => ?_, fun _ => rfl⟩
    obtain ⟨date, ttl, fp, hsplit⟩ := List.length_eq_three.1 hlen
    exact hno date ttl fp hsplit

theorem newline_not_mem_pathEntry {tp : TimePkg} (hplain : tp.Plain) {path : Bytes}
    (hpath : PlainPath path) (now ttl : ℤ) : newline ∉ pathEntry tp now ttl path := by
  unfold pathEntry
  simp only [List.mem_append, List.mem_cons, not_or]
  exact ⟨(hplain.date _).2, by decide, (hplain.duration _).2, by decide, hpath.2⟩

theorem splitOn_pathEntry {tp : TimePkg} (hplain : tp.Plain) {path : Bytes}
    (hpath : PlainPath path) (now ttl : ℤ) :
    (pathEntry tp now ttl path).splitOn comma =
      [tp.formatDate (now + ttl), tp.formatDuration ttl, path] := by
  unfold pathEntry
  rw [List.splitOn_append_cons_self_of_not_mem (hplain.date _).1,
    List.splitOn_append_cons_self_of_not_mem (hplain.duration _).1,
    List.splitOn_eq_singleton hpath.1]

theorem newline_not_mem_entryText {tp : TimePkg} (hplain : tp.Plain) {upFile : Bytes}
    (hname : PlainPath (joinStorage upFile)) (now ttl : ℤ) :
    newline ∉ entryText tp now ttl upFile :=
  newline_not_mem_pathEntry hplain hname now ttl

/-- **The line of an upload names its file.** -/
theorem names_entryText {tp : TimePkg} (hplain : tp.Plain) {upFile : Bytes}
    (hname : PlainPath (joinStorage upFile)) (now ttl : ℤ) :
    Names (entryText tp now ttl upFile) (joinStorage upFile) :=
  ⟨tp.formatDate (now + ttl), tp.formatDuration ttl, splitOn_pathEntry hplain hname now ttl⟩

/-- **A torn rest in front changes nothing about the last field.** -/
theorem names_append {tp : TimePkg} {upFile path rest : Bytes} {now ttl : ℤ}
    (hname : PlainPath (joinStorage upFile))
    (h : Names (rest ++ entryText tp now ttl upFile) path) : path = joinStorage upFile := by
  obtain ⟨d, t, heq⟩ := h
  have hsplit : rest ++ entryText tp now ttl upFile =
      (rest ++ tp.formatDate (now + ttl) ++ comma :: tp.formatDuration ttl) ++
        comma :: joinStorage upFile := by
    simp [entryText, pathEntry]
  rw [hsplit, splitOn_append_piece hname.1] at heq
  have hlast := List.append_inj' (heq.trans (show [d, t, path] = [d, t] ++ [path] from rfl)) rfl
  exact (List.cons.inj hlast.2).1.symm

/-- A journal that grows keeps its complete lines. -/
theorem completeLines_mono {journal journal' : Bytes} (h : journal <+: journal') {line : Bytes}
    (hline : line ∈ completeLines journal) : line ∈ completeLines journal' := by
  obtain ⟨rest, rfl⟩ := h
  exact (prefix_complete_append journal rest).subset hline

/-! ## Committing -/

/-- `WriteString` on the journal, which is opened with `O_APPEND`: the first `n` bytes of the
text get there, and if these are not all there is an error. -/
def writeString (journal text : Bytes) (n : ℕ) : Bytes × Bool :=
  (journal ++ text.take n, decide (text.length ≤ n))

/-- The errors of `CommitJournal`. -/
inductive CommitError where
  | openFile
  | emptyFileName
  | write
  deriving DecidableEq, Repr

/-- A call of `CommitJournal`: the clock, the arguments, whether the journal can be opened and
how many bytes the disk takes.  An empty `upFile` is what `hashFile` returns for an empty
upload. -/
structure Commit where
  now : ℤ
  ttl : ℤ
  storageDir : Bytes
  upFile : Bytes
  opens : Bool
  n : ℕ
  storageDir_plain : PlainPath storageDir
  upFile_hashed : upFile = [] ∨ ∃ d : Digest, upFile = d.checksum

namespace Commit

def path (c : Commit) : Bytes := GoPath.join [c.storageDir, c.upFile]

def expiry (c : Commit) : ℤ := c.now + c.ttl

def entry (tp : TimePkg) (c : Commit) : Bytes := pathEntry tp c.now c.ttl c.path

def line (tp : TimePkg) (c : Commit) : Bytes := c.entry tp ++ [newline]

/-- The call returns no error. -/
def Succeeds (tp : TimePkg) (c : Commit) : Prop :=
  c.opens = true ∧ c.path ≠ [] ∧ (c.line tp).length ≤ c.n

instance (tp : TimePkg) (c : Commit) : Decidable (c.Succeeds tp) :=
  inferInstanceAs (Decidable (_ ∧ _ ∧ _))

/-- What a call that fails leaves in the journal. -/
def torn (tp : TimePkg) (c : Commit) : Bytes :=
  if c.opens = true ∧ c.path ≠ [] then (c.line tp).take c.n else []

end Commit

/-- `CommitJournal`: the journal afterwards, and the error. -/
def commitJournal (tp : TimePkg) (c : Commit) (journal : Bytes) : Bytes × Option CommitError :=
  if c.opens = false then (journal, some .openFile)
  else if c.path.length = 0 then (journal, some .emptyFileName)
  else
    let (journal', written) := writeString journal (c.line tp) c.n
    (journal', if written then none else some .write)

/-- **A call of `CommitJournal`.**  It succeeds with the whole line behind the journal, or it
fails with what was written of it. -/
theorem commitJournal_cases (tp : TimePkg) (c : Commit) (journal : Bytes) :
    (c.Succeeds tp ∧ commitJournal tp c journal = (journal ++ c.line tp, none)) ∨
      (¬ c.Succeeds tp ∧ ∃ err, commitJournal tp c journal = (journal ++ c.torn tp, some err)) := by
  unfold commitJournal Commit.Succeeds Commit.torn writeString
  by_cases hopens : c.opens = true
  · by_cases hpath : c.path = []
    · simp [hopens, hpath]
    · by_cases hn : (c.line tp).length ≤ c.n
      · refine .inl ⟨⟨hopens, hpath, hn⟩, ?_⟩
        simp [hopens, hpath, hn, List.take_of_length_le hn]
      · refine .inr ⟨fun h => hn h.2.2, .write, ?_⟩
        simp [hopens, hpath, hn]
  · simp [hopens]

/-- What a failed call leaves holds no newline. -/
theorem newline_not_mem_torn {tp : TimePkg} {c : Commit} (hentry : newline ∉ c.entry tp)
    (h : ¬ c.Succeeds tp) : newline ∉ c.torn tp := by
  unfold Commit.torn
  split_ifs with hcall
  · have hn : c.n ≤ (c.entry tp).length := by
      by_contra hlt
      refine h ⟨hcall.1, hcall.2, ?_⟩
      rw [Commit.line, List.length_append, List.length_singleton]
      omega
    rw [Commit.line, List.take_append_of_le_length hn]
    exact fun hmem => hentry (List.mem_of_mem_take hmem)
  · exact List.not_mem_nil

theorem upFile_plain (c : Commit) : PlainPath c.upFile := by
  obtain h | ⟨d, h⟩ := c.upFile_hashed
  · rw [h]
    exact ⟨List.not_mem_nil, List.not_mem_nil⟩
  · rw [h]
    exact checksum_plain d

/-- Cleaning a path brings in neither comma nor newline. -/
theorem path_plain (c : Commit) : PlainPath c.path := by
  have hmem : ∀ b, b ∈ c.path → b ∈ c.storageDir ∨ b ∈ c.upFile ∨ b = 0x2E ∨ b = GoPath.slash := by
    intro b hb
    obtain ⟨e, he, hb⟩ | hb := GoPath.mem_join hb
    · simp only [List.mem_cons, List.not_mem_nil, or_false] at he
      obtain rfl | rfl := he
      · exact .inl hb
      · exact .inr (.inl hb)
    · exact .inr (.inr hb)
  constructor
  · intro h
    obtain h | h | h := hmem _ h
    · exact c.storageDir_plain.1 h
    · exact (upFile_plain c).1 h
    · exact absurd h (by decide)
  · intro h
    obtain h | h | h := hmem _ h
    · exact c.storageDir_plain.2 h
    · exact (upFile_plain c).2 h
    · exact absurd h (by decide)

/-- The path of an upload, with the storage directory of the configuration. -/
theorem path_eq_joinStorage (c : Commit) (h : c.storageDir = defaultStoragePath) :
    c.path = joinStorage c.upFile := by
  unfold Commit.path
  rw [h]
  obtain hfile | ⟨d, hfile⟩ := c.upFile_hashed
  · rw [hfile]
    decide +kernel
  · rw [hfile]
    exact join_checksum d

/-! ## Given times -/

/-- Go's `time` package on the few values that given runs use, the clock being at the epoch. -/
def sampleTime : TimePkg where
  formatDate t :=
    if t = 10000000000 then ascii "Thu Jan  1 00:00:10 UTC 1970"
    else ascii "Thu Jan  1 00:30:00 UTC 1970"
  formatDuration d := if d = 10000000000 then ascii "10s" else ascii "30m0s"
  parseDate b :=
    if b = ascii "Thu Jan  1 00:00:10 UTC 1970" then some 10000000000
    else if b = ascii "Thu Jan  1 00:30:00 UTC 1970" then some 1800000000000
    else none
  parseDuration b :=
    if b = ascii "10s" then some 10000000000
    else if b = ascii "30m" then some 1800000000000
    else if b = ascii "30m0s" then some 1800000000000
    else none

theorem plain_sampleTime : sampleTime.Plain := by
  constructor
  · intro t
    unfold sampleTime
    dsimp only
    split_ifs <;> decide +kernel
  · intro d
    unfold sampleTime
    dsimp only
    split_ifs <;> decide +kernel

end Vanishling
