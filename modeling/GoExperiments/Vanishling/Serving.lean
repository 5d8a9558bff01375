import GoExperiments.Lib.WaitGroup
import GoExperiments.Vanishling.Download
import GoExperiments.Vanishling.Server

/-!
# Requests

`ServeHTTP` of `vanishling/core/file_service.go` serves an upload or a download in a goroutine of
its own and waits for it.  It waits by a `sync.WaitGroup`, and there is one such group for all
requests.  Here requests arrive at any time; the goroutines of `net/http`, those of the uploads and
downloads and the cleaner take their steps in any order.  A panic in a goroutine of `net/http` is
caught there and ends the request; one in a goroutine of the service ends the process.

* `serveStep` — the steps; `Served` — everything one can do (`served_of_serveStep`).
* `Timely` — a request that does not come while the last `Done` of a round is under way.
* `returns_after_work`, `returns_when_idle` — if all requests are timely, the process lives, and
  `ServeHTTP` returns when the work of its request, and that of every other one, has ended.
* `serving_ends` — and it does return, or panic, for every request.
* `late_request_ends_process`, `overtaken` — what may happen otherwise.
-/

namespace Vanishling

open Runs Census Go

/-! ## The server with its requests -/

/-- What a request asks for. -/
inductive Verb where
  | upload
  | download
  deriving DecidableEq

/-- The method, in upper case. -/
def verb (method : String) : Option Verb :=
  let reqMethod := method.toList.map Char.toUpper
  if reqMethod = "POST".toList ∨ reqMethod = "PUT".toList then some .upload
  else if reqMethod = "GET".toList then some .download
  else none

/-- A request, with the file in its form. -/
structure Request where
  method : String
  ttlHeader : Bytes
  fileHash : Bytes
  body : Bytes

/-- What the goroutine of a request does: nothing, if `Add` panicked; or an upload, which is one of
the calls of the service; or a download, with its response when it has been sent. -/
inductive Work where
  | absent
  | upload (call : ℕ) (body : Bytes)
  | download (fileHash : Bytes) (response : Option Response)
  deriving DecidableEq

/-- The service and the cleaner, the contents of the files, the wait group with the requests that
have come, and their work. -/
structure Serving where
  server : Server
  content : Bytes → Option Bytes
  group : WaitGroup.Group
  work : List Work

inductive ServeAct where
  | request (r : Request)
  /-- `Wait` of the request `i`. -/
  | wait (i : ℕ)
  /-- `Done`, in the goroutine of the request `i`. -/
  | done (i : ℕ)
  | upload (i : ℕ) (ans : Answer)
  /-- The file is read, which may fail. -/
  | read (i : ℕ) (ok : Bool)
  | clean (ok : Bool) (now : ℤ)

def CallAt.ended : CallAt → Bool
  | .committed _ _ | .failed => true
  | _ => false

namespace Serving

/-- The function of the goroutine has come to its end. -/
def ended (s : Serving) (i : ℕ) : Bool :=
  match s.work[i]? with
  | some (.upload k _) => (s.server.service.calls[k]?).any fun c => c.pc.ended
  | some (.download _ response) => response.isSome
  | _ => false

/-- The wait group after `Add`. -/
def added (s : Serving) : WaitGroup.Group :=
  ⟨(WaitGroup.add s.group.word).1, s.group.parties ++ [(WaitGroup.add s.group.word).2]⟩

/-- `ServeHTTP`, as far as the goroutine it starts. -/
def serveHTTP (s : Serving) (v : Verb) (r : Request) : Serving :=
  if (WaitGroup.add s.group.word).2.task ≠ .running then
    { s with group := s.added, work := s.work ++ [.absent] }
  else match v with
    | .upload =>
        { s with
          server := { s.server with service := { s.server.service with
            calls := s.server.service.calls ++ [⟨r.ttlHeader, .form⟩] } }
          group := s.added
          work := s.work ++ [.upload s.server.service.calls.length r.body] }
    | .download => { s with group := s.added, work := s.work ++ [.download r.fileHash none] }

/-- `ioutil.ReadFile`. -/
def readFile (s : Serving) (ok : Bool) (path : Bytes) : Except String Bytes :=
  match s.content path with
  | some bs => if ok then .ok bs else .error "read"
  | none => .error "open"

end Serving

/-- What the world answers to an upload of `body`: a file of no bytes is refused, and it is read as
a whole. -/
def Answer.of (body : Bytes) (ans : Answer) : CallAt → Answer
  | .form => { ans with ok := ans.ok && !body.isEmpty }
  | .read _ => { ans with n := body.length }
  | _ => ans

def setContent (content : Bytes → Option Bytes) (path bs : Bytes) : Bytes → Option Bytes :=
  fun p => if p = path then some bs else content p

/-- The contents after a step of an upload: a new file is empty; a write goes to the file if it is
still there. -/
def contentAfter (s : Service) (body : Bytes) (ans : Answer) (pc : CallAt)
    (content : Bytes → Option Bytes) : Bytes → Option Bytes :=
  match pc with
  | .create d =>
      if ans.ok ∧ joinStorage d.checksum ∉ s.files then
        setContent content (joinStorage d.checksum) []
      else content
  | .write d _ =>
      if joinStorage d.checksum ∈ s.files then
        setContent content (joinStorage d.checksum) (if ans.ok then body else body.take ans.n)
      else content
  | _ => content

/-- One step; there is none after the end of the process. -/
def serveStep (tp : TimePkg) (limit : ℕ) (s : Serving) (a : ServeAct) : Option Serving :=
  if s.group.word.crashed then none
  else match a with
    | .request r =>
        match verb r.method with
        | none => some s
        | some v => some (s.serveHTTP v r)
    | .wait i => (WaitGroup.step s.group (.call i)).map fun g => { s with group := g }
    | .done i =>
        if s.ended i then (WaitGroup.step s.group (.task i)).map fun g => { s with group := g }
        else none
    | .upload i ans =>
        match s.work[i]? with
        | some (.upload k body) =>
            match s.server.service.calls[k]? with
            | none => none
            | some c =>
                (step tp s.server.service (.step k (ans.of body c.pc))).map fun t =>
                  { s with
                    server := { s.server with service := t }
                    content := contentAfter s.server.service body ans c.pc s.content }
        | _ => none
    | .read i ok =>
        match s.work[i]? with
        | some (.download fileHash none) =>
            some { s with work := s.work.set i (.download fileHash
              (some (download defaultStoragePath (s.readFile ok) fileHash).response)) }
        | _ => none
    | .clean ok now =>
        let server := passStep tp limit s.server ok now
        some { s with
          server := server
          content := fun p => if p ∈ server.service.files then s.content p else none }

def Serving.boot : Serving := ⟨⟨Vanishling.boot, .idle⟩, fun _ => none, .new, []⟩

/-! ## Everything a step can do -/

/-- The cases of `serveStep`. -/
inductive Served (tp : TimePkg) (limit : ℕ) (s : Serving) : ServeAct → Serving → Prop
  | refused (r : Request) (hverb : verb r.method = none) : Served tp limit s (.request r) s
  | panics (r : Request) (v : Verb) (hverb : verb r.method = some v)
      (hadd : (WaitGroup.add s.group.word).2.task ≠ .running) :
      Served tp limit s (.request r) { s with group := s.added, work := s.work ++ [.absent] }
  | uploads (r : Request) (hverb : verb r.method = some .upload) :
      Served tp limit s (.request r)
        { s with
          server := { s.server with service := { s.server.service with
            calls := s.server.service.calls ++ [⟨r.ttlHeader, .form⟩] } }
          group := s.added
          work := s.work ++ [.upload s.server.service.calls.length r.body] }
  | downloads (r : Request) (hverb : verb r.method = some .download) :
      Served tp limit s (.request r)
        { s with group := s.added, work := s.work ++ [.download r.fileHash none] }
  | wait (i : ℕ) (g : WaitGroup.Group) (hstep : WaitGroup.step s.group (.call i) = some g) :
      Served tp limit s (.wait i) { s with group := g }
  | done (i : ℕ) (g : WaitGroup.Group) (hover : s.ended i = true)
      (hstep : WaitGroup.step s.group (.task i) = some g) :
      Served tp limit s (.done i) { s with group := g }
  | upload (i k : ℕ) (body : Bytes) (ans : Answer) (c : Call) (t : Service)
      (hwork : s.work[i]? = some (.upload k body)) (hc : s.server.service.calls[k]? = some c)
      (hstep : step tp s.server.service (.step k (ans.of body c.pc)) = some t) :
      Served tp limit s (.upload i ans)
        { s with
          server := { s.server with service := t }
          content := contentAfter s.server.service body ans c.pc s.content }
  | read (i : ℕ) (ok : Bool) (fileHash : Bytes)
      (hwork : s.work[i]? = some (.download fileHash none)) :
      Served tp limit s (.read i ok)
        { s with work := s.work.set i (.download fileHash
          (some (download defaultStoragePath (s.readFile ok) fileHash).response)) }
  | clean (ok : Bool) (now : ℤ) :
      Served tp limit s (.clean ok now)
        { s with
          server := passStep tp limit s.server ok now
          content := fun p =>
            if p ∈ (passStep tp limit s.server ok now).service.files then s.content p else none }

variable {tp : TimePkg} {limit : ℕ} {s s' : Serving} {a : ServeAct}

theorem alive_of_serveStep (h : serveStep tp limit s a = some s') :
    s.group.word.crashed = false := by
  unfold serveStep at h
  split_ifs at h with hcrashed
  exact Bool.not_eq_true _ ▸ hcrashed

/-- **Inversion.** -/
theorem served_of_serveStep (h : serveStep tp limit s a = some s') : Served tp limit s a s' := by
  have halive := alive_of_serveStep h
  unfold serveStep at h
  rw [if_neg (by rw [halive]; decide)] at h
  cases a with
  | request r =>
      dsimp only at h
      split at h
      case h_1 hverb => cases h; exact .refused r hverb
      case h_2 v hverb =>
        rw [Option.some.injEq] at h
        subst h
        unfold Serving.serveHTTP
        split_ifs with hadd
        · exact .panics r v hverb hadd
        · cases v with
          | upload => exact .uploads r hverb
          | download => exact .downloads r hverb
  | wait i =>
      obtain ⟨g, hstep, rfl⟩ := Option.map_eq_some_iff.1 h
      exact .wait i g hstep
  | done i =>
      dsimp only at h
      split_ifs at h with hover
      obtain ⟨g, hstep, rfl⟩ := Option.map_eq_some_iff.1 h
      exact .done i g hover hstep
  | upload i ans =>
      dsimp only at h
      split at h
      case h_2 => cases h
      case h_1 k body hwork =>
        split at h
        case h_1 => cases h
        case h_2 c hc =>
          obtain ⟨t, hstep, rfl⟩ := Option.map_eq_some_iff.1 h
          exact .upload i k body ans c t hwork hc hstep
  | read i ok =>
      dsimp only at h
      split at h
      case h_2 => cases h
      case h_1 fileHash hwork => cases h; exact .read i ok fileHash hwork
  | clean ok now => cases h; exact .clean ok now

/-! ## The lock -/

/-- Between the lock of `hashFile` and its return. -/
def CallAt.locked : CallAt → Bool
  | .hash | .create _ | .read _ | .write _ _ => true
  | _ => false

/-- One upload is in `hashFile` if the lock is held, and otherwise none. -/
def LockInv (s : Service) : Prop := s.calls.countP (fun c => c.pc.locked) = s.mu.toNat

/-- The lock is taken and given back with the place of the upload. -/
theorem lock_called {t u : Service} {c : Call} {ans : Answer} {pc : CallAt}
    (h : Called tp t c ans u pc) (hheld : c.pc.locked = true → t.mu = true) :
    u.mu.toNat + c.pc.locked.toNat = t.mu.toNat + pc.locked.toNat := by
  cases h with
  | form hpc => rw [hpc]; cases ans.ok <;> rfl
  | probe hpc => rw [hpc]; cases ans.ok <;> rfl
  | openJournal name ttl hpc => rw [hpc]; cases ans.ok <;> rfl
  | lock hpc hmu => rw [hpc, hmu]; rfl
  | hash hpc hok => rw [hpc]; rfl
  | create d hpc hok hnew => rw [hpc]; rfl
  | read d hpc hok => rw [hpc]; rfl
  | setTTL name hpc => rw [hpc]; rfl
  | getTTL name hpc => rw [hpc]; rfl
  | commit name ttl hpc hn => rw [hpc]; rfl
  | torn name ttl hpc hn => rw [hpc]; rfl
  | hashFailed hpc hok | createFailed d hpc hok | readFailed d hpc hok | write d size hpc hok
  | writeFailed d size hpc hok => rw [hheld (by rw [hpc]; rfl), hpc]; rfl

theorem lockInv_step {t u : Service} {b : Act} (h : LockInv t) (hstep : step tp t b = some u) :
    LockInv u := by
  unfold LockInv at h ⊢
  cases stepped_of_step hstep with
  | arrive header =>
      dsimp only
      rw [countP_concat, h]
      rfl
  | crash => rfl
  | call i ans c v pc hc hcalled =>
      have hset := countP_set_add hc (fun c : Call => c.pc.locked) { c with pc := pc }
      have hheld : c.pc.locked = true → t.mu = true := by
        intro hlocked
        have hpos : 0 < t.calls.countP (fun c => c.pc.locked) :=
          List.countP_pos_iff.2 ⟨c, List.mem_of_getElem? hc, hlocked⟩
        rw [h] at hpos
        exact Bool.toNat_eq_one.1 (by have := t.mu.toNat_le; omega)
      have hlock := lock_called hcalled hheld
      dsimp only at hset ⊢
      omega

/-- Whoever has the lock can go on. -/
theorem callStep_of_locked {t : Service} {c : Call} (h : c.pc.locked = true) (ans : Answer) :
    (callStep tp t c ans).isSome = true := by
  unfold CallAt.locked at h
  unfold callStep
  split at h
  case h_1 hpc => rw [hpc]; dsimp only; split_ifs <;> rfl
  case h_2 hpc => rw [hpc]; dsimp only; split_ifs <;> rfl
  case h_3 hpc => rw [hpc]; dsimp only; split_ifs <;> rfl
  case h_4 hpc => rw [hpc]; dsimp only; split_ifs <;> rfl
  case h_5 => cases h

/-- So can everybody else who is not waiting for it. -/
theorem callStep_of_free {t : Service} {c : Call} (h : c.pc.ended = false)
    (hlock : c.pc = .lock → t.mu = false) (ans : Answer) : (callStep tp t c ans).isSome = true := by
  unfold callStep
  cases hpc : c.pc with
  | lock => dsimp only; rw [hlock hpc]; rfl
  | committed name ttl => rw [hpc] at h; cases h
  | failed => rw [hpc] at h; cases h
  | hash | create _ | write _ _ | read _ => dsimp only; split_ifs <;> rfl
  | _ => rfl

/-! ## Requests and the wait group -/

theorem add_step (halive : s.group.word.crashed = false) :
    WaitGroup.step s.group .add = some s.added := by
  rw [WaitGroup.step, halive, if_neg (by decide)]
  rfl

/-- A request with a method that is served does not come while a task is closing. -/
def Timely (s : Serving) : ServeAct → Prop
  | .request r => verb r.method ≠ none → ∀ p ∈ s.group.parties, p.closing = false
  | _ => True

theorem request_step {r : Request} {v : Verb} (halive : s.group.word.crashed = false)
    (hverb : verb r.method = some v) :
    serveStep tp limit s (.request r) = some (s.serveHTTP v r) := by
  rw [serveStep, halive, if_neg (by decide), hverb]

theorem wait_step {i : ℕ} {g : WaitGroup.Group} (h : WaitGroup.step s.group (.call i) = some g) :
    serveStep tp limit s (.wait i) = some { s with group := g } := by
  rw [serveStep, WaitGroup.alive_of_step h, if_neg (by decide)]
  exact congrArg (Option.map _) h

theorem done_step {i : ℕ} {g : WaitGroup.Group} (hover : s.ended i = true)
    (h : WaitGroup.step s.group (.task i) = some g) :
    serveStep tp limit s (.done i) = some { s with group := g } := by
  rw [serveStep, WaitGroup.alive_of_step h, if_neg (by decide), if_pos hover]
  exact congrArg (Option.map _) h

instance (s : Serving) (a : ServeAct) : Decidable (Timely s a) := by
  cases a with
  | request r =>
      exact inferInstanceAs (Decidable (verb r.method ≠ none → ∀ p ∈ s.group.parties,
        p.closing = false))
  | _ => exact inferInstanceAs (Decidable True)

/-- **Behind a step is one of the wait group, or none.** -/
theorem group_step (halive : s.group.word.crashed = false) (h : Served tp limit s a s') :
    s'.group = s.group ∨ ∃ b, WaitGroup.step s.group b = some s'.group ∧
      (Timely s a → WaitGroup.Orderly s.group b) := by
  cases h with
  | refused r hverb => exact .inl rfl
  | panics r v hverb _ => exact .inr ⟨.add, add_step halive, fun ht _ => ht (by rw [hverb]; nofun)⟩
  | uploads r hverb => exact .inr ⟨.add, add_step halive, fun ht _ => ht (by rw [hverb]; nofun)⟩
  | downloads r hverb => exact .inr ⟨.add, add_step halive, fun ht _ => ht (by rw [hverb]; nofun)⟩
  | wait i g hstep => exact .inr ⟨.call i, hstep, fun _ => nofun⟩
  | done i g hover hstep => exact .inr ⟨.task i, hstep, fun _ => nofun⟩
  | upload i k body ans c t hwork hc hstep => exact .inl rfl
  | read i ok fileHash hwork => exact .inl rfl
  | clean ok now => exact .inl rfl

/-! ## Work -/

/-- The cleaner is no upload. -/
theorem kept_passStep (tp : TimePkg) (limit : ℕ) (srv : Server) (ok : Bool) (now : ℤ) :
    (passStep tp limit srv ok now).service.calls = srv.service.calls ∧
      (passStep tp limit srv ok now).service.mu = srv.service.mu := by
  unfold passStep
  split
  · exact ⟨rfl, rfl⟩
  · split
    · exact ⟨rfl, rfl⟩
    · exact ⟨rfl, rfl⟩
    · split_ifs <;> exact ⟨rfl, rfl⟩
  · exact ⟨rfl, rfl⟩
  · exact ⟨rfl, rfl⟩
  · split_ifs <;> exact ⟨rfl, rfl⟩

theorem ended_iff {i : ℕ} : s.ended i = true ↔
    (∃ k body c, s.work[i]? = some (.upload k body) ∧ s.server.service.calls[k]? = some c ∧
      c.pc.ended = true) ∨
    ∃ fileHash response, s.work[i]? = some (.download fileHash (some response)) := by
  unfold Serving.ended
  constructor
  · intro h
    split at h
    case h_1 k body hwork =>
      obtain ⟨c, hc, hover⟩ := (Option.any_eq_true _ _).1 h
      exact .inl ⟨k, body, c, hwork, hc, hover⟩
    case h_2 fileHash response hwork =>
      obtain ⟨r, rfl⟩ := Option.isSome_iff_exists.1 h
      exact .inr ⟨fileHash, r, hwork⟩
    case h_3 => cases h
  · rintro (⟨k, body, c, hwork, hc, hover⟩ | ⟨fileHash, response, hwork⟩)
    · rw [hwork]
      dsimp only
      rw [hc]
      exact hover
    · rw [hwork]
      rfl

/-- What an upload does leaves the other uploads where they are. -/
theorem calls_of_step {t u : Service} {k : ℕ} {ans : Answer}
    (h : step tp t (.step k ans) = some u) :
    ∃ c pc, t.calls[k]? = some c ∧ c.pc.ended = false ∧
      u.calls = t.calls.set k { c with pc := pc } := by
  cases stepped_of_step h with
  | call _ _ c v pc hc hcalled =>
      refine ⟨c, pc, hc, ?_, rfl⟩
      cases hcalled <;> (rw [‹c.pc = _›]; rfl)

/-- **Work that is over stays so.** -/
theorem ended_of_served {i : ℕ} (h : Served tp limit s a s') (hover : s.ended i = true) :
    s'.ended i = true := by
  rw [ended_iff] at hover ⊢
  cases h with
  | refused r hverb => exact hover
  | wait j g hstep => exact hover
  | done j g _ hstep => exact hover
  | panics r v hverb hadd =>
      refine hover.imp ?_ ?_
      · rintro ⟨k, body, c, hwork, hc⟩
        exact ⟨k, body, c, getElem?_concat_of_some hwork _, hc⟩
      · rintro ⟨fileHash, response, hwork⟩
        exact ⟨fileHash, response, getElem?_concat_of_some hwork _⟩
  | uploads r hverb =>
      refine hover.imp ?_ ?_
      · rintro ⟨k, body, c, hwork, hc, hend⟩
        exact ⟨k, body, c, getElem?_concat_of_some hwork _, getElem?_concat_of_some hc _, hend⟩
      · rintro ⟨fileHash, response, hwork⟩
        exact ⟨fileHash, response, getElem?_concat_of_some hwork _⟩
  | downloads r hverb =>
      refine hover.imp ?_ ?_
      · rintro ⟨k, body, c, hwork, hc⟩
        exact ⟨k, body, c, getElem?_concat_of_some hwork _, hc⟩
      · rintro ⟨fileHash, response, hwork⟩
        exact ⟨fileHash, response, getElem?_concat_of_some hwork _⟩
  | upload j k body ans c t hwork hc hstep =>
      refine hover.imp_left ?_
      rintro ⟨k', body', c', hwork', hc', hend⟩
      obtain ⟨d, pc, hd, hnot, hcalls⟩ := calls_of_step hstep
      have hne : k ≠ k' := by
        rintro rfl
        rw [hc', Option.some.injEq] at hd
        rw [← hd, hend] at hnot
        cases hnot
      refine ⟨k', body', c', hwork', ?_, hend⟩
      dsimp only
      rw [hcalls, List.getElem?_set_ne hne, hc']
  | read j ok fileHash hwork =>
      have hne : j ≠ i := by
        rintro rfl
        obtain ⟨k, body, c, hwork', -⟩ | ⟨fileHash', response, hwork'⟩ := hover
        · rw [hwork] at hwork'; cases hwork'
        · rw [hwork] at hwork'; cases hwork'
      refine hover.imp ?_ ?_
      · rintro ⟨k, body, c, hwork', hc⟩
        exact ⟨k, body, c, (List.getElem?_set_ne hne).trans hwork', hc⟩
      · rintro ⟨fileHash', response, hwork'⟩
        exact ⟨fileHash', response, (List.getElem?_set_ne hne).trans hwork'⟩
  | clean ok now =>
      refine hover.imp_left ?_
      rintro ⟨k, body, c, hwork, hc, hend⟩
      refine ⟨k, body, c, hwork, ?_, hend⟩
      dsimp only
      rw [(kept_passStep tp limit s.server ok now).1, hc]

/-! ## Timely requests -/

/-- Every request has work, and every upload of the service is that of a request. -/
structure WorkInv (s : Serving) : Prop where
  length : s.work.length = s.group.parties.length
  present : ∀ w ∈ s.work, w ≠ .absent
  calls : ∀ k body, .upload k body ∈ s.work → k < s.server.service.calls.length
  uploads : ∀ k, k < s.server.service.calls.length → ∃ body, .upload k body ∈ s.work

/-- A goroutine comes to `Done` when its work is over. -/
def Started (s : Serving) : Prop :=
  ∀ (i : ℕ) (p : WaitGroup.Party), s.group.parties[i]? = some p →
    p.task = .running ∨ s.ended i = true

/-- The invariant of the server when all requests are timely. -/
structure ServeInv (s : Serving) : Prop where
  group : WaitGroup.Inv s.group
  lock : LockInv s.server.service
  work : WorkInv s
  started : Started s

/-- If the step is a request that is served, `Add` does not panic. -/
def LetIn (s : Serving) (a : ServeAct) : Prop :=
  ∀ r, a = .request r → verb r.method ≠ none → (WaitGroup.add s.group.word).2.task = .running

theorem letIn_of_timely (h : WaitGroup.Inv s.group) (ht : Timely s a) : LetIn s a := by
  rintro r rfl hverb
  rw [h.add_eq (ht hverb)]

theorem workInv_step (h : WorkInv s) (hin : LetIn s a) (hserved : Served tp limit s a s') :
    WorkInv s' := by
  cases hserved with
  | refused r hverb => exact h
  | panics r v hverb hnot => exact absurd (hin r rfl (by rw [hverb]; nofun)) hnot
  | uploads r hverb =>
      refine ⟨?_, forall_mem_concat h.present nofun, fun k body hmem => ?_, fun k hk => ?_⟩
      · dsimp only [Serving.added]
        rw [List.length_append, List.length_append, h.length]
        rfl
      · dsimp only at hmem ⊢
        rw [List.length_append]
        obtain hmem | hmem := List.mem_append.1 hmem
        · exact Nat.lt_succ_of_lt (h.calls k body hmem)
        · cases List.mem_singleton.1 hmem
          exact Nat.lt_succ_self _
      · dsimp only at hk ⊢
        rw [List.length_append, List.length_singleton] at hk
        obtain hk | rfl := Nat.lt_succ_iff_lt_or_eq.1 hk
        · obtain ⟨body, hmem⟩ := h.uploads k hk
          exact ⟨body, List.mem_append_left _ hmem⟩
        · exact ⟨r.body, List.mem_append_right _ (List.mem_singleton_self _)⟩
  | downloads r hverb =>
      refine ⟨?_, forall_mem_concat h.present nofun, fun k body hmem => ?_, fun k hk => ?_⟩
      · dsimp only [Serving.added]
        rw [List.length_append, List.length_append, h.length]
        rfl
      · obtain hmem | hmem := List.mem_append.1 hmem
        · exact h.calls k body hmem
        · cases List.mem_singleton.1 hmem
      · obtain ⟨body, hmem⟩ := h.uploads k hk
        exact ⟨body, List.mem_append_left _ hmem⟩
  | wait i g hg =>
      exact ⟨h.length.trans (WaitGroup.length_of_step hg).symm, h.present, h.calls, h.uploads⟩
  | done i g hend hg =>
      exact ⟨h.length.trans (WaitGroup.length_of_step hg).symm, h.present, h.calls, h.uploads⟩
  | upload i k body ans c t hwork hc hup =>
      obtain ⟨d, pc, -, -, hcalls⟩ := calls_of_step hup
      have hlen : t.calls.length = s.server.service.calls.length := by
        rw [hcalls, List.length_set]
      refine ⟨h.length, h.present, fun k body hmem => ?_, fun k hk => ?_⟩
      · dsimp only
        rw [hlen]
        exact h.calls k body hmem
      · dsimp only at hk
        rw [hlen] at hk
        exact h.uploads k hk
  | read i ok fileHash hwork =>
      refine ⟨?_, forall_mem_set (b := .download fileHash _) h.present nofun i,
        fun k body hmem => ?_, fun k hk => ?_⟩
      · dsimp only
        rw [List.length_set, h.length]
      · obtain hmem | heq := List.mem_or_eq_of_mem_set hmem
        · exact h.calls k body hmem
        · cases heq
      · obtain ⟨body, hmem⟩ := h.uploads k hk
        exact ⟨body, mem_set_of_ne hwork hmem nofun _⟩
  | clean ok now =>
      have hcalls := (kept_passStep tp limit s.server ok now).1
      refine ⟨h.length, h.present, fun k body hmem => ?_, fun k hk => ?_⟩
      · dsimp only
        rw [hcalls]
        exact h.calls k body hmem
      · dsimp only at hk
        rw [hcalls] at hk
        exact h.uploads k hk

theorem started_step (h : Started s) (hin : LetIn s a) (halive : s.group.word.crashed = false)
    (hserved : Served tp limit s a s') : Started s' := by
  have hover := fun i => ended_of_served (i := i) hserved
  -- the tasks of a group that has taken a step
  have hgroup : ∀ b, WaitGroup.step s.group b = some s'.group →
      (b = .add → (WaitGroup.add s.group.word).2.task = .running) →
      (∀ i, b = .task i → s'.ended i = true) → Started s' := by
    intro b hb hadd htask i p hp
    obtain ⟨hb', -, rfl⟩ | hi | ⟨q, hq, heq⟩ := WaitGroup.task_of_step hb hp
    · exact .inl (hadd hb')
    · exact .inr (htask i hi)
    · rw [← heq]
      exact (h i q hq).imp_right (hover i)
  have hsame : s'.group = s.group → Started s' := by
    intro heq i p hp
    rw [heq] at hp
    exact (h i p hp).imp_right (hover i)
  cases hserved with
  | refused r hverb => exact h
  | panics r v hverb hnot =>
      exact hgroup .add (add_step halive) (fun _ => hin r rfl (by rw [hverb]; nofun)) nofun
  | uploads r hverb =>
      exact hgroup .add (add_step halive) (fun _ => hin r rfl (by rw [hverb]; nofun)) nofun
  | downloads r hverb =>
      exact hgroup .add (add_step halive) (fun _ => hin r rfl (by rw [hverb]; nofun)) nofun
  | wait i g hg => exact hgroup (.call i) hg nofun nofun
  | done i g hend hg =>
      refine hgroup (.task i) hg nofun fun j hj => ?_
      cases hj
      exact hover i hend
  | upload i k body ans c t hwork hc hup => exact hsame rfl
  | read i ok fileHash hwork => exact hsame rfl
  | clean ok now => exact hsame rfl

theorem lockInv_served (h : LockInv s.server.service) (hserved : Served tp limit s a s') :
    LockInv s'.server.service := by
  cases hserved with
  | uploads r hverb =>
      have harrive : step tp s.server.service (.arrive r.ttlHeader) = some _ := rfl
      exact lockInv_step h harrive
  | upload i k body ans c t hwork hc hup => exact lockInv_step h hup
  | clean ok now =>
      obtain ⟨hcalls, hmu⟩ := kept_passStep tp limit s.server ok now
      unfold LockInv at h ⊢
      dsimp only
      rw [hcalls, hmu, h]
  | _ => exact h

/-- **Timely steps keep the invariant.** -/
theorem serveInv_step (h : ServeInv s) (ht : Timely s a)
    (hstep : serveStep tp limit s a = some s') : ServeInv s' := by
  have halive := alive_of_serveStep hstep
  have hserved := served_of_serveStep hstep
  have hgroup : WaitGroup.Inv s'.group := by
    obtain heq | ⟨b, hb, horderly⟩ := group_step halive hserved
    · rw [heq]
      exact h.group
    · exact WaitGroup.inv_step h.group (horderly ht) hb
  have hin := letIn_of_timely h.group ht
  exact ⟨hgroup, lockInv_served h.lock hserved, workInv_step h.work hin hserved,
    started_step h.started hin halive hserved⟩

theorem serveInv_boot : ServeInv Serving.boot where
  group := .new
  lock := rfl
  work := ⟨rfl, fun _ h => absurd h List.not_mem_nil, fun _ _ h => absurd h List.not_mem_nil,
    fun k hk => absurd hk (Nat.not_lt_zero k)⟩
  started := fun _ _ hp => absurd hp nofun

section Timely

variable {acts : List ServeAct} {t : Serving}

/-- **The invariant holds at the end of a run of timely requests.** -/
theorem serveInv_run (htimely : EachStep (serveStep tp limit) Timely Serving.boot acts)
    (hrun : run (serveStep tp limit) Serving.boot acts = some t) : ServeInv t :=
  always_final (always_of_eachStep serveInv_boot (fun _ _ _ h => serveInv_step h) htimely) hrun

/-- One download, up to the count of its `Done`. -/
def lookup : List ServeAct := [.request ⟨"get", [], [97], []⟩, .wait 0, .read 0 true, .done 0]

/-- The rest of it, up to the return of `ServeHTTP`, with the cleaner at work between. -/
def closing : List ServeAct :=
  [.done 0, .clean true 0, .done 0, .clean true 0, .done 0, .wait 0]

theorem lookup_timely : EachStep (serveStep sampleTime 0) Timely Serving.boot (lookup ++ closing) :=
  checkEachStep_iff.1 (by decide +kernel)

theorem lookup_runs : ∃ t, run (serveStep sampleTime 0) Serving.boot lookup = some t ∧
    t.group = ⟨⟨0, 1, 0, false⟩, [⟨.blocked, .last 1⟩]⟩ :=
  Option.map_eq_some_iff.1 (by decide +kernel)

theorem closing_runs : ∃ t, run (serveStep sampleTime 0) Serving.boot (lookup ++ closing) = some t ∧
    t.group = ⟨⟨0, 0, 0, false⟩, [⟨.woken, .releasing 0⟩]⟩ :=
  Option.map_eq_some_iff.1 (by decide +kernel)

/-- **`ServeHTTP` returns when the work of its request has ended**, if all requests are timely: the
process lives, and of a request for which `ServeHTTP` has returned the upload has been committed or
has failed, or the download has been answered. -/
theorem returns_after_work (htimely : EachStep (serveStep tp limit) Timely Serving.boot acts)
    (hrun : run (serveStep tp limit) Serving.boot acts = some t) :
    t.group.word.crashed = false ∧
      ∀ (i : ℕ) (p : WaitGroup.Party), t.group.parties[i]? = some p → p.call = .returned →
        t.ended i = true := by
  have h := serveInv_run htimely hrun
  refine ⟨h.group.alive, fun i p hp hcall => ?_⟩
  refine (h.started i p hp).resolve_left ?_
  exact h.group.returned p (List.mem_of_getElem? hp) hcall

theorem returns_after_work_lookup :
    ∃ t, run (serveStep sampleTime 0) Serving.boot (lookup ++ closing ++ [.wait 0]) = some t ∧
      t.ended 0 = true := by
  obtain ⟨t, hrun, hgroup⟩ : ∃ t, run (serveStep sampleTime 0) Serving.boot
      (lookup ++ closing ++ [.wait 0]) = some t ∧
        t.group = ⟨⟨0, 0, 0, false⟩, [⟨.returned, .releasing 0⟩]⟩ :=
    Option.map_eq_some_iff.1 (by decide +kernel)
  have htimely : EachStep (serveStep sampleTime 0) Timely Serving.boot
      (lookup ++ closing ++ [.wait 0]) := checkEachStep_iff.1 (by decide +kernel)
  exact ⟨t, hrun, (returns_after_work htimely hrun).2 0 _ (by rw [hgroup]; rfl) rfl⟩

/-- **`ServeHTTP` returns when nothing is being worked on**: when it returns for one request, the
work of all requests that have come has ended.  So one slow upload holds up all answers. -/
theorem returns_when_idle {i : ℕ} {p p' : WaitGroup.Party}
    (htimely : EachStep (serveStep tp limit) Timely Serving.boot acts)
    (hrun : run (serveStep tp limit) Serving.boot acts = some s)
    (hstep : serveStep tp limit s a = some s') (hp : s.group.parties[i]? = some p)
    (hp' : s'.group.parties[i]? = some p') (hout : p.call ≠ .returned)
    (hback : p'.call = .returned) : ∀ j, j < s.work.length → s.ended j = true := by
  have h := serveInv_run htimely hrun
  intro j hj
  have hlt : j < s.group.parties.length := h.work.length ▸ hj
  have hq : s.group.parties[j]? = some s.group.parties[j] := List.getElem?_eq_getElem hlt
  refine (h.started j _ hq).resolve_left ?_
  obtain heq | ⟨b, hb, -⟩ := group_step (alive_of_serveStep hstep) (served_of_serveStep hstep)
  · rw [heq, hp, Option.some.injEq] at hp'
    exact absurd (hp' ▸ hback) hout
  · exact WaitGroup.running_of_return h.group hb hp hp' hout hback _ (List.getElem_mem hlt)

theorem returns_when_idle_lookup :
    ∃ t, run (serveStep sampleTime 0) Serving.boot (lookup ++ closing) = some t ∧
      ∀ j, j < t.work.length → t.ended j = true := by
  obtain ⟨t, hrun, hgroup⟩ := closing_runs
  have hwait : WaitGroup.step t.group (.call 0) =
      some ⟨⟨0, 0, 0, false⟩, [⟨.returned, .releasing 0⟩]⟩ := by rw [hgroup]; rfl
  have hparty : t.group.parties[0]? = some ⟨.woken, .releasing 0⟩ := by rw [hgroup]; rfl
  exact ⟨t, hrun, returns_when_idle lookup_timely hrun (wait_step hwait) hparty rfl nofun rfl⟩

end Timely

/-! ## Nobody waits for ever -/

/-- A step of `ServeHTTP` or of a goroutine it has started. -/
def ServeAct.own : ServeAct → Bool
  | .request _ | .clean _ _ => false
  | _ => true

theorem timely_of_not_request (h : ∀ r, a ≠ .request r) : Timely s a := by
  cases a with
  | request r => exact absurd rfl (h r)
  | _ => trivial

/-- The steps an upload has before it, at most. -/
def CallAt.rank : CallAt → ℕ
  | .form => 11
  | .probe => 10
  | .lock => 9
  | .hash => 8
  | .create _ => 7
  | .read _ => 6
  | .write _ _ => 5
  | .setTTL _ => 4
  | .getTTL _ => 3
  | .openJournal _ _ => 2
  | .commit _ _ => 1
  | .committed _ _ | .failed => 0

theorem Called.rank_lt {t u : Service} {c : Call} {ans : Answer} {pc : CallAt}
    (h : Called tp t c ans u pc) : pc.rank < c.pc.rank := by
  cases h with
  | form hpc => rw [hpc]; cases ans.ok <;> decide
  | probe hpc => rw [hpc]; cases ans.ok <;> decide
  | openJournal name ttl hpc => rw [hpc]; cases ans.ok <;> simp [CallAt.rank]
  | _ => rw [‹c.pc = _›]; simp [CallAt.rank]

/-- What is left of the work of a request, apart from the steps of an upload. -/
def Work.rank : Work → ℕ
  | .download _ none => 1
  | _ => 0

/-- The steps that the goroutines have before them. -/
def Serving.remaining (s : Serving) : ℕ :=
  s.group.remaining + (s.server.service.calls.map fun c => c.pc.rank).sum +
    (s.work.map Work.rank).sum

/-- **Every step of the server's own is one less.** -/
theorem remaining_serveStep (h : ServeInv s) (hown : a.own = true)
    (hstep : serveStep tp limit s a = some s') : s'.remaining < s.remaining := by
  unfold Serving.remaining
  cases served_of_serveStep hstep with
  | refused r hverb => cases hown
  | panics r v hverb hnot => cases hown
  | uploads r hverb => cases hown
  | downloads r hverb => cases hown
  | clean ok now => cases hown
  | wait i g hg =>
      have hlt := WaitGroup.remaining_step h.group (a := .call i) nofun hg
      dsimp only
      omega
  | done i g hover hg =>
      have hlt := WaitGroup.remaining_step h.group (a := .task i) nofun hg
      dsimp only
      omega
  | upload i k body ans c t hwork hc hup =>
      cases stepped_of_step hup with
      | call _ _ c' u pc hc' hcalled =>
          have hset := sum_map_set_add hc' (fun c => c.pc.rank) { c' with pc := pc }
          have hlt := hcalled.rank_lt
          dsimp only at hset ⊢
          omega
  | read i ok fileHash hwork =>
      have hset := sum_map_set_add hwork Work.rank (.download fileHash
        (some (download defaultStoragePath (s.readFile ok) fileHash).response))
      dsimp only [Work.rank] at hset ⊢
      omega

/-- The cleaner takes nothing off. -/
theorem remaining_of_not_own (hown : a.own = false) (hrequest : ∀ r, a ≠ .request r)
    (hstep : serveStep tp limit s a = some s') : s'.remaining = s.remaining := by
  cases served_of_serveStep hstep with
  | clean ok now =>
      unfold Serving.remaining
      dsimp only
      rw [(kept_passStep tp limit s.server ok now).1]
  | refused r hverb => exact absurd rfl (hrequest r)
  | panics r v hverb hnot => exact absurd rfl (hrequest r)
  | uploads r hverb => exact absurd rfl (hrequest r)
  | downloads r hverb => exact absurd rfl (hrequest r)
  | _ => cases hown

/-- An upload that is not over can take a step, or one that holds the lock can. -/
theorem upload_goes_on (tp : TimePkg) (limit : ℕ) (h : ServeInv s) {i k : ℕ} {body : Bytes}
    {c : Call} (hwork : s.work[i]? = some (.upload k body))
    (hc : s.server.service.calls[k]? = some c) (hover : c.pc.ended = false) (ans : Answer) :
    ∃ j, (serveStep tp limit s (.upload j ans)).isSome = true := by
  -- the step of an upload that can take one
  have henabled : ∀ {j k body c}, s.work[j]? = some (.upload k body) →
      s.server.service.calls[k]? = some c →
      (∀ ans, (callStep tp s.server.service c ans).isSome = true) →
      (serveStep tp limit s (.upload j ans)).isSome = true := by
    intro j k body c hwork hc hcall
    unfold serveStep
    rw [h.group.alive, if_neg (by decide)]
    dsimp only
    rw [hwork]
    dsimp only
    rw [hc]
    dsimp only [step]
    rw [hc, Option.isSome_map, Option.isSome_map]
    exact hcall _
  by_cases hwait : c.pc = .lock → s.server.service.mu = false
  · exact ⟨i, henabled hwork hc (callStep_of_free hover hwait)⟩
  · obtain ⟨-, hmu⟩ := Classical.not_imp.1 hwait
    have hlock := h.lock
    unfold LockInv at hlock
    rw [Bool.eq_true_of_not_eq_false hmu] at hlock
    obtain ⟨c', hmem, hlocked⟩ := List.countP_pos_iff.1 (Nat.lt_of_lt_of_eq Nat.one_pos hlock.symm)
    obtain ⟨k', hk'⟩ := List.getElem?_of_mem hmem
    obtain ⟨body', hmem'⟩ := h.work.uploads k' (List.getElem?_eq_some_iff.1 hk').1
    obtain ⟨j, hj⟩ := List.getElem?_of_mem hmem'
    exact ⟨j, henabled hj hk' (callStep_of_locked hlocked)⟩

/-- Where the server can do nothing of its own, all work is over. -/
theorem ended_of_stuck (h : ServeInv s)
    (hstuck : ∀ a : ServeAct, a.own = true → serveStep tp limit s a = none) {i : ℕ}
    (hi : i < s.work.length) : s.ended i = true := by
  have hwork : s.work[i]? = some s.work[i] := List.getElem?_eq_getElem hi
  cases hw : s.work[i] with
  | absent => exact absurd hw (h.work.present _ (List.getElem_mem hi))
  | download fileHash response =>
      rw [hw] at hwork
      cases response with
      | some r => exact ended_iff.2 (.inr ⟨fileHash, r, hwork⟩)
      | none =>
          have hnone := hstuck (.read i true) rfl
          rw [serveStep, h.group.alive, if_neg (by decide)] at hnone
          rw [hwork] at hnone
          cases hnone
  | upload k body =>
      rw [hw] at hwork
      have hk := h.work.calls k body (List.mem_of_getElem? hwork)
      have hc := List.getElem?_eq_getElem hk
      refine ended_iff.2 (.inl ⟨k, body, _, hwork, hc, ?_⟩)
      by_contra hnot
      obtain ⟨j, hj⟩ := upload_goes_on tp limit h hwork hc (Bool.eq_false_of_not_eq_true hnot)
        ⟨true, ⟨List.replicate 32 0, rfl⟩, 0, 0⟩
      rw [hstuck _ rfl] at hj
      cases hj

/-- Where the server can do nothing of its own, `ServeHTTP` has come to its end for all requests. -/
theorem all_answered_of_stuck (h : ServeInv s)
    (hstuck : ∀ a : ServeAct, a.own = true → serveStep tp limit s a = none) :
    ∀ p ∈ s.group.parties, p.call = .returned ∨ p.call = .panicked := by
  refine WaitGroup.all_out_of_stuck h.group (fun i => ?_) (fun i => ?_)
  · have hnone := hstuck (.wait i) rfl
    rw [serveStep, h.group.alive, if_neg (by decide)] at hnone
    exact Option.map_eq_none_iff.1 hnone
  · by_cases hi : i < s.work.length
    · have hnone := hstuck (.done i) rfl
      rw [serveStep, h.group.alive, if_neg (by decide)] at hnone
      rw [ended_of_stuck h hstuck hi, if_pos rfl] at hnone
      exact Option.map_eq_none_iff.1 hnone
    · have hout : s.group.parties[i]? = none := by
        rw [List.getElem?_eq_none_iff, ← h.work.length]
        omega
      rw [WaitGroup.step, h.group.alive, if_neg (by decide)]
      dsimp only
      rw [hout]

/-- **Nobody waits for ever**, if all requests are timely.  When no more requests come, the
goroutines take a bounded number of steps, in whatever order and whatever the cleaner does between
them; and they can go on until `ServeHTTP` has returned or panicked for every request. -/
theorem serving_ends {acts later : List ServeAct} {t u : Serving}
    (htimely : EachStep (serveStep tp limit) Timely Serving.boot acts)
    (hrun : run (serveStep tp limit) Serving.boot acts = some t)
    (hlater : ∀ r, .request r ∉ later) (hrun' : run (serveStep tp limit) t later = some u) :
    later.countP ServeAct.own ≤ t.remaining ∧
      ((∀ a : ServeAct, a.own = true → serveStep tp limit u a = none) →
        ∀ p ∈ u.group.parties, p.call = .returned ∨ p.call = .panicked) := by
  have h := serveInv_run htimely hrun
  clear htimely hrun
  have hend : later.countP ServeAct.own + u.remaining ≤ t.remaining ∧ ServeInv u := by
    induction later generalizing t with
    | nil => cases hrun'; exact ⟨Nat.le_of_eq (Nat.zero_add _), h⟩
    | cons a later ih =>
        obtain ⟨t', ht', hrest⟩ := Option.bind_eq_some_iff.1 hrun'
        have ha : ∀ r, a ≠ .request r := fun r heq => hlater r (heq ▸ List.mem_cons_self)
        obtain ⟨hle, hu⟩ := ih (fun r hr => hlater r (List.mem_cons_of_mem a hr)) hrest
          (serveInv_step h (timely_of_not_request ha) ht')
        refine ⟨?_, hu⟩
        cases hown : a.own with
        | true =>
            have hlt := remaining_serveStep h hown ht'
            rw [List.countP_cons_of_pos hown]
            omega
        | false =>
            have heq := remaining_of_not_own hown ha ht'
            rw [List.countP_cons_of_neg (by rw [hown]; exact Bool.false_ne_true)]
            omega
  exact ⟨by omega, all_answered_of_stuck hend.2⟩

theorem serving_ends_lookup :
    ∃ t, run (serveStep sampleTime 0) Serving.boot lookup = some t ∧
      closing.countP ServeAct.own ≤ t.remaining := by
  obtain ⟨t, hrun, hgroup⟩ := lookup_runs
  obtain ⟨u, hall, -⟩ := closing_runs
  obtain ⟨t', hrun', hclosing⟩ := run_append_eq_some.1 hall
  rw [hrun, Option.some.injEq] at hrun'
  subst hrun'
  have hlater : ∀ r, .request r ∉ closing := fun r hr => by simp [closing] at hr
  exact ⟨t, hrun, (serving_ends (eachStep_append.1 lookup_timely).1 hrun hlater hclosing).1⟩

/-! ## Requests that are not timely -/

/-- **A request while the last `Done` of a round has not looked again ends the process**: whatever
is done then, the process has ended, or it ends with the next step of that `Done`. -/
theorem late_request_ends_process {acts acts' : List ServeAct} {t u v : Serving} {i n : ℕ}
    {p : WaitGroup.Party} {r : Request}
    (htimely : EachStep (serveStep tp limit) Timely Serving.boot acts)
    (hrun : run (serveStep tp limit) Serving.boot acts = some t)
    (hp : t.group.parties[i]? = some p) (hlast : p.task = .last n) (hverb : verb r.method ≠ none)
    (hreq : serveStep tp limit t (.request r) = some u)
    (hrun' : run (serveStep tp limit) u acts' = some v) :
    v.group.word.crashed = true ∨
      ∃ w, serveStep tp limit v (.done i) = some w ∧ w.group.word.crashed = true := by
  have h := serveInv_run htimely hrun
  have hover : t.ended i = true := by
    refine (h.started i p hp).resolve_left ?_
    rw [hlast]
    nofun
  have hadd : WaitGroup.step t.group .add = some u.group := by
    cases served_of_serveStep hreq with
    | refused _ hnone => exact absurd hnone hverb
    | panics _ _ _ _ => exact add_step h.group.alive
    | uploads _ _ => exact add_step h.group.alive
    | downloads _ _ => exact add_step h.group.alive
  have hdoomed : v.group.word.crashed = true ∨
      WaitGroup.Doomed i v.group ∧ v.ended i = true := by
    refine run_invariant (fun v : Serving => v.group.word.crashed = true ∨
      WaitGroup.Doomed i v.group ∧ v.ended i = true) (.inr ⟨?_, ?_⟩) ?_ hrun'
    · exact WaitGroup.doomed_add h.group hp hlast hadd
    · exact ended_of_served (served_of_serveStep hreq) hover
    · rintro s a s' hs hstep
      have halive := alive_of_serveStep hstep
      have hserved := served_of_serveStep hstep
      obtain ⟨hs, hover⟩ := hs.resolve_left (by rw [halive]; decide)
      have hover' := ended_of_served hserved hover
      obtain heq | ⟨b, hb, -⟩ := group_step halive hserved
      · rw [heq]
        exact .inr ⟨hs, hover'⟩
      · exact (WaitGroup.doomed_step hs hb).imp_right (⟨·, hover'⟩)
  by_cases hcrashed : v.group.word.crashed = true
  · exact .inl hcrashed
  · have halive := Bool.eq_false_of_not_eq_true hcrashed
    obtain ⟨hdoom, hover⟩ := hdoomed.resolve_left hcrashed
    obtain ⟨g, hg, hend⟩ := WaitGroup.doomed_task hdoom halive
    exact .inr ⟨{ v with group := g }, done_step hover hg, hend⟩

theorem late_request_ends_process_lookup : ∃ t u,
    run (serveStep sampleTime 0) Serving.boot lookup = some t ∧
      serveStep sampleTime 0 t (.request ⟨"PUT", [], [], [1]⟩) = some u ∧
      (u.group.word.crashed = true ∨
        ∃ w, serveStep sampleTime 0 u (.done 0) = some w ∧ w.group.word.crashed = true) := by
  obtain ⟨t, hrun, hgroup⟩ := lookup_runs
  have hreq : serveStep sampleTime 0 t (.request ⟨"PUT", [], [], [1]⟩) = some _ :=
    request_step (by rw [hgroup]) (v := .upload) (by decide +kernel)
  have hparty : t.group.parties[0]? = some ⟨.blocked, .last 1⟩ := by rw [hgroup]; rfl
  have hrest : run (serveStep sampleTime 0) (t.serveHTTP .upload ⟨"PUT", [], [], [1]⟩) [] =
    some (t.serveHTTP .upload ⟨"PUT", [], [], [1]⟩) := rfl
  exact ⟨t, _, hrun, hreq, late_request_ends_process (eachStep_append.1 lookup_timely).1 hrun hparty
    rfl (by decide +kernel) hreq hrest⟩

/-- Two requests after the last look: the first panics, the second is let in. -/
theorem two_requests (tp : TimePkg) (limit : ℕ) {i : ℕ} {r r' : Request}
    (halive : s.group.word.crashed = false) (hcount : s.group.word.count = 0)
    (hwaiters : s.group.word.waiters ≠ 0) (hover : s.ended i = true)
    (hverb : verb r.method ≠ none) (hverb' : verb r'.method = some .download) :
    ∃ t, run (serveStep tp limit) s [.request r, .request r'] = some t ∧
      run WaitGroup.step s.group [.add, .add] = some t.group ∧ t.ended i = true ∧
      t.work[s.work.length + 1]? = some (.download r'.fileHash none) := by
  obtain ⟨v, hv⟩ := Option.ne_none_iff_exists'.1 hverb
  have hfirst : serveStep tp limit s (.request r) =
      some { s with group := s.added, work := s.work ++ [.absent] } := by
    have hpanic : (WaitGroup.add s.group.word).2.task ≠ .running := by
      rw [WaitGroup.add, if_pos ⟨hwaiters, hcount⟩]
      nofun
    rw [request_step halive hv, Serving.serveHTTP.eq_def, if_pos hpanic]
  have hover₁ := ended_of_served (served_of_serveStep hfirst) hover
  have hadd₁ := add_step halive
  generalize hs₁ : ({ s with group := s.added, work := s.work ++ [.absent] } : Serving) = s₁ at *
  have hword : s₁.group = s.added := by rw [← hs₁]
  have halive₁ : s₁.group.word.crashed = false := by rw [hword]; exact halive
  have hsecond : serveStep tp limit s₁ (.request r') =
      some { s₁ with group := s₁.added, work := s₁.work ++ [.download r'.fileHash none] } := by
    have hlet : ¬ (WaitGroup.add s₁.group.word).2.task ≠ .running := by
      rw [hword, WaitGroup.add, if_neg (fun hpanic => Nat.succ_ne_zero _ hpanic.2)]
      exact not_not.2 rfl
    rw [request_step halive₁ hverb', Serving.serveHTTP.eq_def, if_neg hlet]
  refine ⟨_, ?_, ?_, ended_of_served (served_of_serveStep hsecond) hover₁, ?_⟩
  · rw [run_cons, hfirst, Option.bind_some, run_cons, hsecond]
    rfl
  · rw [run_cons, hadd₁, Option.bind_some, ← hword, run_cons, add_step halive₁]
    rfl
  · rw [← hs₁]
    simp

/-- A download that is no longer in the count ends the process. -/
theorem ends_uncounted (tp : TimePkg) (limit : ℕ) {j : ℕ} {fileHash : Bytes}
    {c : WaitGroup.CallAt} (halive : s.group.word.crashed = false) (hcount : s.group.word.count = 0)
    (hparty : s.group.parties[j]? = some ⟨c, .running⟩)
    (hwork : s.work[j]? = some (.download fileHash none)) :
    ∃ t, run (serveStep tp limit) s [.read j true, .done j] = some t ∧
      t.group.word.crashed = true := by
  have hread : serveStep tp limit s (.read j true) = some
      { s with work := s.work.set j (.download fileHash
        (some (download defaultStoragePath (s.readFile true) fileHash).response)) } := by
    rw [serveStep, halive, if_neg (by decide), hwork]
  have hnegative : WaitGroup.taskStep s.group.word .running =
      some ({ s.group.word with crashed := true }, .running) := if_pos hcount
  obtain ⟨g, hdone, hend⟩ : ∃ g, WaitGroup.step s.group (.task j) = some g ∧
      g.word.crashed = true := ⟨_, WaitGroup.step_task halive hparty hnegative, rfl⟩
  generalize hs' : ({ s with work := s.work.set j (.download fileHash
    (some (download defaultStoragePath (s.readFile true) fileHash).response)) } : Serving) = s'
      at hread
  have hover : s'.ended j = true := by
    rw [← hs']
    exact ended_iff.2 (.inr ⟨fileHash, _, getElem?_set_self_of_some hwork _⟩)
  have hgroup : s'.group = s.group := by rw [← hs']
  rw [← hgroup] at hdone
  refine ⟨{ s' with group := g }, ?_, hend⟩
  rw [run_cons, hread, Option.bind_some, run_cons, done_step hover hdone]
  rfl

/-- The steps by which `ServeHTTP` returns too early for the second of two requests: the goroutine
`i` has looked at the state for the last time, and the first request is the one that panics. -/
def overtaking (i k : ℕ) (r r' : Request) : List ServeAct :=
  [.request r, .request r', .wait (k + 1), .done i, .done i, .wait (k + 1), .wait (k + 1)]

/-- **Two requests after the last look**: `ServeHTTP` returns for the second, a download, before its
file has been read, and the process ends with the `Done` of that download. -/
theorem overtaken {acts : List ServeAct} {t : Serving} {i n : ℕ} {p : WaitGroup.Party}
    {r r' : Request} (htimely : EachStep (serveStep tp limit) Timely Serving.boot acts)
    (hrun : run (serveStep tp limit) Serving.boot acts = some t)
    (hp : t.group.parties[i]? = some p) (hchecked : p.task = .checked n)
    (hverb : verb r.method ≠ none) (hverb' : verb r'.method = some .download) :
    ∃ u v, run (serveStep tp limit) t (overtaking i t.work.length r r') = some u ∧
      u.group.parties[t.work.length + 1]? = some ⟨.returned, .running⟩ ∧
      u.ended (t.work.length + 1) = false ∧
      run (serveStep tp limit) u
        [.read (t.work.length + 1) true, .done (t.work.length + 1)] = some v ∧
      v.group.word.crashed = true := by
  have h := serveInv_run htimely hrun
  have hlen := h.work.length
  obtain ⟨g, hgroup, halive, hcount, hparty⟩ := WaitGroup.early_return h.group hp hchecked
  rw [← hlen] at hgroup hparty
  have hover : t.ended i = true := (h.started i p hp).resolve_left (by rw [hchecked]; nofun)
  obtain ⟨hzero, hn, hne⟩ := h.group.closing p (List.mem_of_getElem? hp) n (.inr hchecked)
  obtain ⟨t₂, hrun₂, hadds, hover₂, hwork₂⟩ :=
    two_requests tp limit h.group.alive hzero (hn ▸ hne) hover hverb hverb'
  generalize t.work.length = k at *
  have hsplit : run WaitGroup.step t.group ([.add, .add] ++
      [.call (k + 1), .task i, .task i, .call (k + 1), .call (k + 1)]) = some g := hgroup
  obtain ⟨g₂, hg₂, hrest⟩ := run_append_eq_some.1 hsplit
  rw [hadds, Option.some.injEq] at hg₂
  subst hg₂
  -- the other steps are those of the wait group
  obtain ⟨g₃, hg₃, hrest⟩ := Option.bind_eq_some_iff.1 hrest
  obtain ⟨g₄, hg₄, hrest⟩ := Option.bind_eq_some_iff.1 hrest
  obtain ⟨g₅, hg₅, hrest⟩ := Option.bind_eq_some_iff.1 hrest
  obtain ⟨g₆, hg₆, hrest⟩ := Option.bind_eq_some_iff.1 hrest
  obtain ⟨g₇, hg₇, hrest⟩ := Option.bind_eq_some_iff.1 hrest
  cases hrest
  have hlast : run (serveStep tp limit) t₂
      [.wait (k + 1), .done i, .done i, .wait (k + 1), .wait (k + 1)] =
        some { t₂ with group := g } := by
    rw [run_cons, wait_step hg₃, Option.bind_some, run_cons,
      done_step (s := { t₂ with group := g₃ }) hover₂ hg₄, Option.bind_some, run_cons,
      done_step (s := { t₂ with group := g₄ }) hover₂ hg₅, Option.bind_some, run_cons,
      wait_step (s := { t₂ with group := g₅ }) hg₆, Option.bind_some, run_cons,
      wait_step (s := { t₂ with group := g₆ }) hg₇]
    rfl
  obtain ⟨v, hv, hend⟩ := ends_uncounted tp limit (s := { t₂ with group := g }) halive hcount hparty
    hwork₂
  refine ⟨{ t₂ with group := g }, v, run_append_eq_some.2 ⟨t₂, hrun₂, hlast⟩, hparty, ?_, hv, hend⟩
  rw [Serving.ended, hwork₂]
  rfl

theorem overtaken_lookup : ∃ t u,
    run (serveStep sampleTime 0) Serving.boot (lookup ++ [.done 0]) = some t ∧
      run (serveStep sampleTime 0) t (overtaking 0 t.work.length ⟨"POST", [], [], [1]⟩
        ⟨"GET", [], [98], []⟩) = some u ∧ u.ended (t.work.length + 1) = false := by
  obtain ⟨t, hrun, hgroup⟩ : ∃ t,
      run (serveStep sampleTime 0) Serving.boot (lookup ++ [.done 0]) = some t ∧
        t.group = ⟨⟨0, 1, 0, false⟩, [⟨.blocked, .checked 1⟩]⟩ :=
    Option.map_eq_some_iff.1 (by decide +kernel)
  have htimely : EachStep (serveStep sampleTime 0) Timely Serving.boot (lookup ++ [.done 0]) :=
    checkEachStep_iff.1 (by decide +kernel)
  obtain ⟨u, v, hu, -, hover, -⟩ := overtaken htimely hrun (i := 0) (n := 1)
    (r := ⟨"POST", [], [], [1]⟩) (by rw [hgroup]; rfl) rfl (by decide +kernel)
    (show verb (⟨"GET", [], [98], []⟩ : Request).method = some .download by decide +kernel)
  exact ⟨t, u, hrun, hu, hover⟩

end Vanishling
