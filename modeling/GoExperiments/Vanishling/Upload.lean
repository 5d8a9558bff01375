import Mathlib.Data.Finset.Insert
import GoExperiments.Lib.Runs
import GoExperiments.Vanishling.Journal

/-!
# Uploads

Requests are served concurrently.  An upload stores the file, tells the journaler its time
to live, asks the journaler for it again and commits a line to the journal; the field
`fileTTL` in between is one for all requests.  Only `hashFile` runs under a lock.

* `callStep` — one step of one `upload`, with the answer of the operating system.
* `step` — the service: requests arrive, uploads take steps in any order, and the process
  may crash, which leaves the files and the journal.
* `callStep_commit` — the last step of an upload is a call of `commitJournal`.
* `Called`, `Stepped` — everything such a step can do (`called_of_callStep`,
  `stepped_of_step`).
* `journal_step` — no step of an upload takes anything out of the journal.
-/

namespace Vanishling

open Runs Go

/-! ## The service -/

/-- Where an `upload` is: `form` is the look at the request, `probe` is `ensureDirWritable`,
`lock` to `write` are the steps of `hashFile`, and `openJournal` and `commit` those of
`CommitJournal`. -/
inductive CallAt where
  | form
  | probe
  | lock
  | hash
  | create (checksum : Digest)
  | read (checksum : Digest)
  | write (checksum : Digest) (size : ℕ)
  | setTTL (hashedFileName : Bytes)
  | getTTL (hashedFileName : Bytes)
  | openJournal (hashedFileName : Bytes) (ttl : ℤ)
  | commit (hashedFileName : Bytes) (ttl : ℤ)
  | committed (hashedFileName : Bytes) (ttl : ℤ)
  | failed
  deriving DecidableEq

/-- A request that is being served, with its `x-ttl` header. -/
structure Call where
  ttlHeader : Bytes
  pc : CallAt
  deriving DecidableEq

/-- The file service: the paths in the storage directory, the journal file, the shared field
`fileTTL`, whether the lock `mu` is held, and the requests. -/
structure Service where
  files : Finset Bytes
  journal : Bytes
  fileTTL : ℤ
  mu : Bool
  calls : List Call

/-- What the world answers in a step: whether the operation succeeds, the hash of the file,
a number of bytes read or written, and the time. -/
structure Answer where
  ok : Bool
  digest : Digest
  n : ℕ
  now : ℤ

/-- A request arrives, an upload takes a step, or the process crashes and is started
again. -/
inductive Act where
  | arrive (ttlHeader : Bytes)
  | step (i : ℕ) (ans : Answer)
  | crash

/-- One step of an upload: the service and the place after it. -/
def callStep (tp : TimePkg) (s : Service) (c : Call) (ans : Answer) : Option (Service × CallAt) :=
  match c.pc with
  -- the disk is not full, the form can be read and names a file
  | .form => some (s, if ans.ok then .probe else .failed)
  | .probe => some (s, if ans.ok then .lock else .failed)
  | .lock => if s.mu then none else some ({ s with mu := true }, .hash)
  | .hash =>
      if ans.ok then some (s, .create ans.digest) else some ({ s with mu := false }, .failed)
  | .create d =>
      -- O_CREATE|O_EXCL
      if ans.ok ∧ joinStorage d.checksum ∉ s.files then
        some ({ s with files := insert (joinStorage d.checksum) s.files }, .read d)
      else some ({ s with mu := false }, .failed)
  | .read d => if ans.ok then some (s, .write d ans.n) else some ({ s with mu := false }, .failed)
  | .write d size =>
      -- `n <= 0 || err != nil` returns an empty name, and no error if nothing was to be written
      if ans.ok then
        some ({ s with mu := false }, .setTTL (if size = 0 then [] else d.checksum))
      else some ({ s with mu := false }, .failed)
  | .setTTL name => some ({ s with fileTTL := uploadTTL tp c.ttlHeader }, .getTTL name)
  | .getTTL name => some (s, .openJournal name s.fileTTL)
  | .openJournal name ttl => some (s, if ans.ok then .commit name ttl else .failed)
  | .commit name ttl =>
      let (journal, written) := writeString s.journal (journalLine tp ans.now ttl name) ans.n
      some ({ s with journal := journal }, if written then .committed name ttl else .failed)
  | .committed _ _ | .failed => none

/-- One step of the service. -/
def step (tp : TimePkg) (s : Service) : Act → Option Service
  | .arrive header => some { s with calls := s.calls ++ [⟨header, .form⟩] }
  | .step i ans =>
      match s.calls[i]? with
      | none => none
      | some c =>
          (callStep tp s c ans).map fun (s', pc) =>
            { s' with calls := s.calls.set i { c with pc := pc } }
  | .crash => some { s with fileTTL := 0, mu := false, calls := [] }

/-- A service on an empty disk. -/
def boot : Service := ⟨∅, [], 0, false, []⟩

variable {tp : TimePkg} {s s' : Service} {c : Call} {ans : Answer} {a : Act}

/-- **The last step of an upload** writes what `CommitJournal` writes, which is called with the
storage directory of the configuration and has the journal open. -/
theorem callStep_commit (commit : Commit) (hdir : commit.storageDir = defaultStoragePath)
    (hopens : commit.opens = true) (hnow : ans.now = commit.now) (hn : ans.n = commit.n)
    (hpc : c.pc = .commit commit.upFile commit.ttl) :
    callStep tp s c ans =
      some ({ s with journal := (commitJournal tp commit s.journal).1 },
        if (commitJournal tp commit s.journal).2 = none then .committed commit.upFile commit.ttl
        else .failed) := by
  have hpath : commit.path ≠ [] := by
    rw [path_eq_joinStorage commit hdir]
    exact joinStorage_ne_nil _
  have hline : journalLine tp ans.now commit.ttl commit.upFile = commit.line tp := by
    rw [hnow, Commit.line, Commit.entry, path_eq_joinStorage commit hdir]
    rfl
  unfold callStep commitJournal writeString
  rw [hpc]
  dsimp only
  rw [hline, hn]
  by_cases hall : (commit.line tp).length ≤ commit.n
  · simp [hopens, hpath, hall]
  · simp [hopens, hpath, hall]

/-! ## Everything a step can do -/

/-- The cases of `callStep`. -/
inductive Called (tp : TimePkg) (s : Service) (c : Call) (ans : Answer) : Service → CallAt → Prop
  | form (hpc : c.pc = .form) : Called tp s c ans s (if ans.ok then .probe else .failed)
  | probe (hpc : c.pc = .probe) : Called tp s c ans s (if ans.ok then .lock else .failed)
  | lock (hpc : c.pc = .lock) (hmu : s.mu = false) : Called tp s c ans { s with mu := true } .hash
  | hash (hpc : c.pc = .hash) (hok : ans.ok = true) : Called tp s c ans s (.create ans.digest)
  | hashFailed (hpc : c.pc = .hash) (hok : ans.ok = false) :
      Called tp s c ans { s with mu := false } .failed
  | create (d : Digest) (hpc : c.pc = .create d) (hok : ans.ok = true)
      (hnew : joinStorage d.checksum ∉ s.files) :
      Called tp s c ans { s with files := insert (joinStorage d.checksum) s.files } (.read d)
  | createFailed (d : Digest) (hpc : c.pc = .create d)
      (hok : ¬ (ans.ok ∧ joinStorage d.checksum ∉ s.files)) :
      Called tp s c ans { s with mu := false } .failed
  | read (d : Digest) (hpc : c.pc = .read d) (hok : ans.ok = true) :
      Called tp s c ans s (.write d ans.n)
  | readFailed (d : Digest) (hpc : c.pc = .read d) (hok : ans.ok = false) :
      Called tp s c ans { s with mu := false } .failed
  | write (d : Digest) (size : ℕ) (hpc : c.pc = .write d size) (hok : ans.ok = true) :
      Called tp s c ans { s with mu := false } (.setTTL (if size = 0 then [] else d.checksum))
  | writeFailed (d : Digest) (size : ℕ) (hpc : c.pc = .write d size) (hok : ans.ok = false) :
      Called tp s c ans { s with mu := false } .failed
  | setTTL (name : Bytes) (hpc : c.pc = .setTTL name) :
      Called tp s c ans { s with fileTTL := uploadTTL tp c.ttlHeader } (.getTTL name)
  | getTTL (name : Bytes) (hpc : c.pc = .getTTL name) :
      Called tp s c ans s (.openJournal name s.fileTTL)
  | openJournal (name : Bytes) (ttl : ℤ) (hpc : c.pc = .openJournal name ttl) :
      Called tp s c ans s (if ans.ok then .commit name ttl else .failed)
  | commit (name : Bytes) (ttl : ℤ) (hpc : c.pc = .commit name ttl)
      (hn : (journalLine tp ans.now ttl name).length ≤ ans.n) :
      Called tp s c ans { s with journal := s.journal ++ journalLine tp ans.now ttl name }
        (.committed name ttl)
  | torn (name : Bytes) (ttl : ℤ) (hpc : c.pc = .commit name ttl)
      (hn : ans.n < (journalLine tp ans.now ttl name).length) :
      Called tp s c ans
        { s with journal := s.journal ++ (journalLine tp ans.now ttl name).take ans.n } .failed

/-- **Inversion** of a step of an upload. -/
theorem called_of_callStep {pc : CallAt} (h : callStep tp s c ans = some (s', pc)) :
    Called tp s c ans s' pc := by
  unfold callStep at h
  split at h
  case h_1 hpc => cases h; exact .form hpc
  case h_2 hpc => cases h; exact .probe hpc
  case h_3 hpc =>
    split_ifs at h with hmu
    cases h
    exact .lock hpc (Bool.not_eq_true _ ▸ hmu)
  case h_4 hpc =>
    split_ifs at h with hok
    · cases h; exact .hash hpc hok
    · cases h; exact .hashFailed hpc (Bool.not_eq_true _ ▸ hok)
  case h_5 d hpc =>
    split_ifs at h with hok
    · cases h; exact .create d hpc hok.1 hok.2
    · cases h; exact .createFailed d hpc hok
  case h_6 d hpc =>
    split_ifs at h with hok
    · cases h; exact .read d hpc hok
    · cases h; exact .readFailed d hpc (Bool.not_eq_true _ ▸ hok)
  case h_7 d size hpc =>
    by_cases hok : ans.ok = true
    · rw [if_pos hok] at h
      cases h
      exact .write d size hpc hok
    · rw [if_neg hok] at h
      cases h
      exact .writeFailed d size hpc (Bool.not_eq_true _ ▸ hok)
  case h_8 name hpc => cases h; exact .setTTL name hpc
  case h_9 name hpc => cases h; exact .getTTL name hpc
  case h_10 name ttl hpc => cases h; exact .openJournal name ttl hpc
  case h_11 name ttl hpc =>
    by_cases hn : (journalLine tp ans.now ttl name).length ≤ ans.n
    · simp only [writeString, decide_eq_true hn, List.take_of_length_le hn] at h
      cases h
      exact .commit name ttl hpc hn
    · simp only [writeString, decide_eq_false hn] at h
      cases h
      exact .torn name ttl hpc (Nat.not_le.1 hn)
  case h_12 => cases h
  case h_13 => cases h

/-- The cases of `step`. -/
inductive Stepped (tp : TimePkg) (s : Service) : Act → Service → Prop
  | arrive (header : Bytes) :
      Stepped tp s (.arrive header) { s with calls := s.calls ++ [⟨header, .form⟩] }
  | call (i : ℕ) (ans : Answer) (c : Call) (t : Service) (pc : CallAt) (hc : s.calls[i]? = some c)
      (hcalled : Called tp s c ans t pc) :
      Stepped tp s (.step i ans) { t with calls := s.calls.set i { c with pc := pc } }
  | crash : Stepped tp s .crash { s with fileTTL := 0, mu := false, calls := [] }

/-- **Inversion.** -/
theorem stepped_of_step (h : step tp s a = some s') : Stepped tp s a s' := by
  cases a with
  | arrive header => cases h; exact .arrive header
  | crash => cases h; exact .crash
  | step i ans =>
      simp only [step] at h
      split at h
      case h_1 => cases h
      case h_2 c hc =>
        obtain ⟨⟨t, pc⟩, hcall, rfl⟩ := Option.map_eq_some_iff.1 h
        exact .call i ans c t pc hc (called_of_callStep hcall)

/-! ## The journal grows -/

/-- The journal only grows. -/
theorem journal_called {t : Service} {pc : CallAt} (h : Called tp s c ans t pc) :
    s.journal <+: t.journal := by
  cases h with
  | commit name ttl hpc hn => exact List.prefix_append _ _
  | torn name ttl hpc hn => exact List.prefix_append _ _
  | _ => exact List.prefix_refl _

theorem journal_step (h : step tp s a = some s') : s.journal <+: s'.journal := by
  cases stepped_of_step h with
  | arrive header => exact List.prefix_refl _
  | crash => exact List.prefix_refl _
  | call i ans c t pc hc hcalled =>
      have hgrows := journal_called hcalled
      exact hgrows

end Vanishling
