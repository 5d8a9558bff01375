import GoExperiments.Vanishling.Expiry

/-!
# Downloads

`download` of `vanishling/core/file_service.go` reads the file that the `x-file-id` header of a
request names.  It refuses an empty name and names with `..` or a slash, and joins every other
name to the storage directory.

* `download` — the handler: the paths it reads and the response.
* `download_confined` — with a clean absolute storage directory, what is read is an entry of this
  directory with exactly the name of the header or, for the name `.`, the directory itself.
* `download_stored` — the name that an upload returns leads back to the file it has stored.
-/

namespace Vanishling

open GoPath Go

/-- What is sent to the client. -/
structure Response where
  status : ℕ
  body : Bytes
  deriving DecidableEq

def statusOK : ℕ := 200
def statusBadRequest : ℕ := 400

/-- What a call of `download` does: the paths it reads, and the response. -/
structure Downloaded where
  reads : List Bytes
  response : Response
  deriving DecidableEq

/-- `download`, with the value of the `x-file-id` header, empty if it is absent, and what
`ioutil.ReadFile` returns for a path. -/
def download (storagePath : Bytes) (readFile : Bytes → Except String Bytes) (fileHash : Bytes) :
    Downloaded :=
  if fileHash.length = 0 then ⟨[], ⟨statusBadRequest, []⟩⟩
  else if dotdot <:+: fileHash ∨ [GoPath.slash] <:+: fileHash then ⟨[], ⟨statusBadRequest, []⟩⟩
  else
    let p := join [storagePath, fileHash]
    match readFile p with
    | .error _ => ⟨[p], ⟨statusBadRequest, []⟩⟩
    | .ok fileBytes => ⟨[p], ⟨statusOK, fileBytes⟩⟩

/-- A name that `download` does not refuse. -/
structure Admitted (fileHash : Bytes) : Prop where
  ne_nil : fileHash ≠ []
  no_dotdot : ¬ dotdot <:+: fileHash
  no_slash : GoPath.slash ∉ fileHash

theorem download_of_admitted (storagePath : Bytes) (readFile : Bytes → Except String Bytes)
    {fileHash : Bytes} (h : Admitted fileHash) :
    (download storagePath readFile fileHash).reads = [join [storagePath, fileHash]] ∧
      (download storagePath readFile fileHash).response =
        match readFile (join [storagePath, fileHash]) with
        | .error _ => ⟨statusBadRequest, []⟩
        | .ok fileBytes => ⟨statusOK, fileBytes⟩ := by
  have hlen : ¬ fileHash.length = 0 := fun hzero => h.ne_nil (List.eq_nil_of_length_eq_zero hzero)
  have hlook : ¬ (dotdot <:+: fileHash ∨ [GoPath.slash] <:+: fileHash) := by
    rintro (hdots | hslash)
    · exact h.no_dotdot hdots
    · exact h.no_slash (hslash.subset (List.mem_singleton_self _))
  simp only [download, if_neg hlen, if_neg hlook]
  cases readFile (join [storagePath, fileHash]) with
  | error err => exact ⟨rfl, rfl⟩
  | ok fileBytes => exact ⟨rfl, rfl⟩

theorem download_of_not_admitted (storagePath : Bytes) (readFile : Bytes → Except String Bytes)
    {fileHash : Bytes} (h : ¬ Admitted fileHash) :
    download storagePath readFile fileHash = ⟨[], ⟨statusBadRequest, []⟩⟩ := by
  unfold download
  by_cases hlen : fileHash.length = 0
  · rw [if_pos hlen]
  rw [if_neg hlen]
  by_cases hlook : dotdot <:+: fileHash ∨ [GoPath.slash] <:+: fileHash
  · rw [if_pos hlook]
  · have hne : fileHash ≠ [] := fun hnil => hlen (congrArg List.length hnil)
    rw [not_or] at hlook
    refine absurd ⟨hne, hlook.1, fun hmem => hlook.2 ?_⟩ h
    obtain ⟨u, v, rfl⟩ := List.append_of_mem hmem
    exact ⟨u, v, by simp⟩

/-- Only `.` is not an ordinary name. -/
theorem Admitted.ordinary {fileHash : Bytes} (h : Admitted fileHash) (hdot : fileHash ≠ dot) :
    Ordinary fileHash where
  ne_nil := h.ne_nil
  ne_dot := hdot
  ne_dotdot := by
    rintro rfl
    exact h.no_dotdot (List.infix_refl _)
  no_slash := h.no_slash

/-- **Downloads stay inside the storage directory.**  For a clean absolute storage directory, a
name that is refused makes `download` read nothing.  Any other name makes it read one path, the
joined one; and this is the storage directory, if the name is `.`, or else the entry of the storage
directory with that name. -/
theorem download_confined (storagePath : Bytes) (hroot : rooted storagePath = true)
    (hclean : clean storagePath = storagePath) (readFile : Bytes → Except String Bytes)
    (fileHash : Bytes) :
    (¬ Admitted fileHash → (download storagePath readFile fileHash).reads = []) ∧
    (Admitted fileHash →
      (download storagePath readFile fileHash).reads = [join [storagePath, fileHash]] ∧
      ((fileHash = dot ∧ join [storagePath, fileHash] = storagePath) ∨
        (Ordinary fileHash ∧ join [storagePath, fileHash] = entry storagePath fileHash))) := by
  constructor
  · intro h
    rw [download_of_not_admitted storagePath readFile h]
  · intro h
    refine ⟨(download_of_admitted storagePath readFile h).1, ?_⟩
    by_cases hdot : fileHash = dot
    · subst hdot
      exact .inl ⟨rfl, join_dot hroot hclean⟩
    · have hord := h.ordinary hdot
      exact .inr ⟨hord, join_ordinary hroot hclean hord⟩

/-- The name `.a.` has two dots, but not in a row. -/
theorem download_confined_default :
    (download defaultStoragePath .ok [0x2E, 0x61, 0x2E]).reads =
      [defaultStoragePath ++ [0x2F, 0x2E, 0x61, 0x2E]] := by
  have hadm : Admitted [0x2E, 0x61, 0x2E] := ⟨by decide, by decide, by decide⟩
  obtain ⟨hreads, hpath⟩ := (download_confined defaultStoragePath rooted_storage clean_storage .ok
    [0x2E, 0x61, 0x2E]).2 hadm
  obtain ⟨hdot, -⟩ | ⟨-, hentry⟩ := hpath
  · exact absurd hdot (by decide)
  · have hne : defaultStoragePath ≠ [GoPath.slash] := by decide +kernel
    rw [hreads, hentry, entry, if_neg hne]
    rfl

/-- The name of a stored file is not refused, and leads back to the file. -/
theorem download_stored (d : Digest) {readFile : Bytes → Except String Bytes} {fileBytes : Bytes}
    (hfile : readFile (joinStorage d.checksum) = .ok fileBytes) :
    download defaultStoragePath readFile d.checksum =
      ⟨[joinStorage d.checksum], ⟨statusOK, fileBytes⟩⟩ := by
  have hord := ordinary_checksum d
  have hdots : ¬ dotdot <:+: d.checksum := by
    intro hinf
    have hmem : 0x2E ∈ d.checksum := hinf.subset (by decide)
    exact absurd (le_of_mem_hexEncode hmem) (by decide)
  obtain ⟨hreads, hresp⟩ := download_of_admitted defaultStoragePath readFile
    ⟨hord.ne_nil, hdots, hord.no_slash⟩
  rw [join_checksum] at hreads hresp
  rw [hfile] at hresp
  generalize download defaultStoragePath readFile d.checksum = r at hreads hresp
  cases r
  simp only at hreads hresp
  rw [hreads, hresp]

end Vanishling
