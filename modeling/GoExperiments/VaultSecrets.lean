import GoExperiments.Lib.GoBasic
import GoExperiments.Lib.GoMap

/-!
# Importing passwords into Vault

`vault-secrets/main.go` reads a KeePass export and writes every record behind the header to
Vault, under a path made of the record's title.  One map is filled anew for every record; after
a write its password is deleted.

* `main` — the program: its checks, the reading of the fields, and `importLoop`, the loop of the
  writes.
* `fill_eq_secretOf` — whatever the map was left with, a record fills all of it.
* `main_eq` — the writes, one for every record.
* `import_lossless_iff` — no record is lost, whatever Vault holds before, exactly when no two
  different records have the same title.
-/

namespace VaultSecrets

open GoMap Go

/-! ## The source -/

structure KeepassEntry where
  group : Bytes
  title : Bytes
  username : Bytes
  password : Bytes
  url : Bytes
  notes : Bytes
  deriving DecidableEq

/-- The map that is written to Vault. -/
abbrev Secret := Map String Bytes

/-- What Vault holds, by path. -/
abbrev Vault := Map Bytes Secret

/-- How the program ends early. -/
inductive Exit where
  | fatal (msg : Bytes)
  | panic (msg : Bytes)
  deriving DecidableEq

/-- What the program meets. -/
structure World where
  vaultToken : Bytes
  vaultAddr : Bytes
  /-- The error of `v.NewClient`, if any. -/
  newClient : Option Bytes
  /-- The error of `os.Open`, if any. -/
  openFile : Option Bytes
  /-- What `csv.Reader.ReadAll` returns. -/
  readAll : Except Bytes (List (List Bytes))
  /-- The error of the write for the record with the given index, if any. -/
  write : ℕ → Option Bytes

/-- The loop that reads the fields. -/
def readEntries : List (List Bytes) → Except Exit (List KeepassEntry)
  | [] => .ok []
  | e :: records =>
      match e with
      | group :: title :: username :: password :: url :: notes :: _ => do
          let entries ← readEntries records
          return ⟨group, title, username, password, url, notes⟩ :: entries
      | _ => .error (.panic (ascii "runtime error: index out of range"))

/-- The six assignments to the map. -/
def fill (secret : Secret) (e : KeepassEntry) : Secret :=
  (((((secret.insert "Group" e.group).insert "Title" e.title).insert "Username" e.username).insert
    "Password" e.password).insert "URL" e.url).insert "Notes" e.notes

def cubbyhole (title : Bytes) : Bytes := ascii "cubbyhole/" ++ title

/-- The loop of the writes, from index `i` on.  `Write` stores the map as it is at the time of the
call, in place of what was there. -/
def importLoop (write : ℕ → Option Bytes) :
    ℕ → List KeepassEntry → Secret → Vault → Vault × Option Exit
  | _, [], _, vault => (vault, none)
  | i, e :: entries, secret, vault =>
      if i = 0 then importLoop write (i + 1) entries secret vault
      else
        let secret := fill secret e
        let secretPath := cubbyhole e.title
        match write i with
        | some err =>
            (vault, some (.fatal (ascii "error while writing to secret path '" ++ secretPath ++
              ascii "' to Vault: " ++ err ++ ascii "\n")))
        | none =>
            importLoop write (i + 1) entries (secret.erase "Password")
              (vault.insert secretPath secret)

/-- The program, with what Vault holds before. -/
def main (w : World) (vault : Vault) : Vault × Option Exit :=
  if w.vaultToken = [] then (vault, some (.fatal (ascii "VAULT_TOKEN env variable is empty")))
  else if w.vaultAddr = [] then (vault, some (.fatal (ascii "VAULT_ADDR env variable is empty")))
  else match w.newClient with
    | some err => (vault, some (.fatal (ascii "err: " ++ err ++ ascii "\n")))
    | none => match w.openFile with
      | some err => (vault, some (.fatal (ascii "error: " ++ err ++ ascii "\n")))
      | none => match w.readAll with
        | .error err => (vault, some (.fatal (ascii "error: " ++ err ++ ascii "\n")))
        | .ok records => match readEntries records with
          | .error exit => (vault, some exit)
          | .ok entries => importLoop w.write 0 entries ∅ vault

/-! ## The map -/

/-- The keys that a record has values for. -/
def fieldNames : List String := ["Group", "Title", "Username", "Password", "URL", "Notes"]

/-- A record as a map. -/
def secretOf (e : KeepassEntry) : Secret := fill ∅ e

/-- The fields of a record, by key. -/
theorem lookup_fill (secret : Secret) (e : KeepassEntry) (k : String) :
    (fill secret e).lookup k =
      if k = "Notes" then some e.notes else if k = "URL" then some e.url
      else if k = "Password" then some e.password else if k = "Username" then some e.username
      else if k = "Title" then some e.title else if k = "Group" then some e.group
      else secret.lookup k := by
  simp only [fill, lookup_insert_ite]

/-- Nothing is left of what the map held before. -/
theorem fill_eq_secretOf {secret : Secret} (h : ∀ k ∉ fieldNames, secret.lookup k = none)
    (e : KeepassEntry) : fill secret e = secretOf e := by
  refine Finmap.ext_lookup fun k => ?_
  rw [secretOf, lookup_fill, lookup_fill]
  split_ifs with h₁ h₂ h₃ h₄ h₅ h₆
  all_goals try rfl
  have hk : k ∉ fieldNames := by simp [fieldNames, h₁, h₂, h₃, h₄, h₅, h₆]
  rw [h k hk, Finmap.lookup_empty]

theorem lookup_erase_secretOf (e : KeepassEntry) {k : String} (hk : k ∉ fieldNames) :
    ((secretOf e).erase "Password").lookup k = none := by
  simp only [fieldNames, List.mem_cons, List.not_mem_nil, or_false, not_or] at hk
  obtain ⟨h₁, h₂, h₃, h₄, h₅, h₆⟩ := hk
  rw [Finmap.lookup_erase_ne h₄, secretOf, lookup_fill, if_neg h₆, if_neg h₅, if_neg h₄, if_neg h₃,
    if_neg h₂, if_neg h₁, Finmap.lookup_empty]

def KeepassEntry.fields (e : KeepassEntry) : List Bytes :=
  [e.group, e.title, e.username, e.password, e.url, e.notes]

theorem map_lookup_secretOf (e : KeepassEntry) :
    fieldNames.map (secretOf e).lookup = e.fields.map some := by
  simp [fieldNames, secretOf, lookup_fill, KeepassEntry.fields]

/-- A record can be read off its map. -/
theorem secretOf_inj {e e' : KeepassEntry} (h : secretOf e = secretOf e') : e = e' := by
  have hsome : e.fields.map some = e'.fields.map some := by
    rw [← map_lookup_secretOf, h, map_lookup_secretOf]
  have hfields : e.fields = e'.fields :=
    List.map_injective_iff.2 (Option.some_injective _) hsome
  cases e
  cases e'
  simpa [KeepassEntry.fields] using hfields

/-! ## The writes -/

/-- The assignments that the writes make. -/
def writes (rows : List KeepassEntry) : List (Bytes × Secret) :=
  rows.map fun e => (cubbyhole e.title, secretOf e)

/-- Vault after these assignments. -/
def written (rows : List KeepassEntry) (vault : Vault) : Vault :=
  (writes rows).foldl (fun m w => m.insert w.1 w.2) vault

/-- A loop that ends without an error has written every record. -/
theorem importLoop_eq {write : ℕ → Option Bytes} {rows : List KeepassEntry} {i : ℕ} {secret : Secret}
    {vault : Vault} (hi : i ≠ 0) (hsecret : ∀ k ∉ fieldNames, secret.lookup k = none)
    (hdone : (importLoop write i rows secret vault).2 = none) :
    (importLoop write i rows secret vault).1 = written rows vault := by
  induction rows generalizing i secret vault with
  | nil => rfl
  | cons e rows ih =>
      rw [importLoop, if_neg hi] at hdone ⊢
      simp only [fill_eq_secretOf hsecret] at hdone ⊢
      cases hw : write i with
      | some err =>
          rw [hw] at hdone
          cases hdone
      | none =>
          rw [hw] at hdone
          exact ih (Nat.succ_ne_zero i) (fun k hk => lookup_erase_secretOf e hk) hdone

theorem readEntries_fields (entries : List KeepassEntry) :
    readEntries (entries.map KeepassEntry.fields) = .ok entries := by
  induction entries with
  | nil => rfl
  | cons e entries ih =>
      simp only [List.map_cons, KeepassEntry.fields, readEntries]
      rw [ih]
      rfl

/-- The program, when it ends without an error. -/
theorem main_eq {w : World} {header : KeepassEntry} {rows : List KeepassEntry} {vault : Vault}
    (hcsv : w.readAll = .ok ((header :: rows).map KeepassEntry.fields))
    (hdone : (main w vault).2 = none) :
    (main w vault).1 = written rows vault := by
  simp only [main, hcsv, readEntries_fields] at hdone ⊢
  split_ifs at hdone ⊢ with htoken haddr
  cases hclient : w.newClient with
  | some err => simp [hclient] at hdone
  | none =>
      cases hopen : w.openFile with
      | some err => simp [hclient, hopen] at hdone
      | none =>
          -- the header is skipped
          simp only [hclient, hopen, importLoop, if_pos] at hdone ⊢
          exact importLoop_eq Nat.one_ne_zero (fun k _ => Finmap.lookup_empty k) hdone

/-! ## What Vault holds afterwards -/

/-- Vault holds the record, with exactly its fields, at some path of the cubbyhole. -/
def Held (vault : Vault) (e : KeepassEntry) : Prop :=
  ∃ title, vault.lookup (cubbyhole title) = some (secretOf e)

theorem cubbyhole_inj {t t' : Bytes} (h : cubbyhole t = cubbyhole t') : t = t' :=
  List.append_cancel_left h

/-- Afterwards, the path of a record holds a record that was written there. -/
theorem lookup_written {rows : List KeepassEntry} {e : KeepassEntry} (vault : Vault)
    (he : e ∈ rows) :
    ∃ e' ∈ rows, cubbyhole e'.title = cubbyhole e.title ∧
      (written rows vault).lookup (cubbyhole e.title) = some (secretOf e') := by
  have hassigned : (cubbyhole e.title, secretOf e) ∈ writes rows := List.mem_map.2 ⟨e, he, rfl⟩
  obtain ⟨secret, hmem, hlook⟩ := lookup_foldl_of_mem hassigned vault
  obtain ⟨e', he', heq⟩ := List.mem_map.1 hmem
  obtain ⟨hpath, rfl⟩ := Prod.mk.inj heq
  exact ⟨e', he', hpath, hlook⟩

/-- In an empty Vault, a record is held under its own title only. -/
theorem lookup_of_held {rows : List KeepassEntry} {e : KeepassEntry}
    (h : Held (written rows ∅) e) :
    (written rows ∅).lookup (cubbyhole e.title) = some (secretOf e) := by
  obtain ⟨title, hlook⟩ := h
  obtain hmem | hempty := mem_of_lookup_foldl hlook
  · obtain ⟨e', -, heq⟩ := List.mem_map.1 hmem
    obtain ⟨hpath, hsecret⟩ := Prod.mk.inj heq
    rw [← secretOf_inj hsecret, hpath, hlook, secretOf_inj hsecret]
  · rw [Finmap.lookup_empty] at hempty
    cases hempty

/-- **The import loses no record exactly when titles tell the records apart.**  For every export
and every program run that ends without an error: whatever Vault holds before, it holds every
record afterwards, if and only if no two different records have the same title. -/
theorem import_lossless_iff (w : World) (header : KeepassEntry) (rows : List KeepassEntry)
    (hcsv : w.readAll = .ok ((header :: rows).map KeepassEntry.fields))
    (hdone : ∀ vault, (main w vault).2 = none) :
    (∀ vault, ∀ e ∈ rows, Held (main w vault).1 e) ↔
      ∀ e ∈ rows, ∀ e' ∈ rows, e.title = e'.title → e = e' := by
  have hmain := fun vault => main_eq hcsv (hdone vault)
  constructor
  · intro h e he e' he' htitle
    have hempty := h ∅
    rw [hmain] at hempty
    have hlook := lookup_of_held (hempty e he)
    rw [htitle, lookup_of_held (hempty e' he')] at hlook
    exact (secretOf_inj (Option.some.inj hlook)).symm
  · intro h vault e he
    rw [hmain]
    refine ⟨e.title, ?_⟩
    obtain ⟨e', he', hpath, hlook⟩ := lookup_written vault he
    rw [hlook, h e he e' he' (cubbyhole_inj hpath).symm]

def headerRow : KeepassEntry := ⟨[0x47], [0x54], [0x55], [0x50], [0x52], [0x4e]⟩

/-- An export with the records given, and a Vault that accepts every write. -/
def exportOf (rows : List KeepassEntry) : World where
  vaultToken := [0x74]
  vaultAddr := [0x61]
  newClient := none
  openFile := none
  readAll := .ok ((headerRow :: rows).map KeepassEntry.fields)
  write _ := none

/-- The record of a mail account. -/
def mail : KeepassEntry := ⟨[0x68], [0x6d], [0x75], [0x31], [], []⟩

/-- The record of a bank account. -/
def bank : KeepassEntry := ⟨[0x68], [0x62], [0x75], [0x32], [], []⟩

/-- The record of another mail account, in another group. -/
def workMail : KeepassEntry := ⟨[0x77], [0x6d], [0x76], [0x33], [], []⟩

theorem import_lossless_mail_bank :
    Held (main (exportOf [mail, bank]) ∅).1 mail ∧ Held (main (exportOf [mail, bank]) ∅).1 bank := by
  have hheld := (import_lossless_iff (exportOf [mail, bank]) headerRow [mail, bank] rfl
    fun _ => rfl).2 (by decide)
  exact ⟨hheld ∅ mail (by decide), hheld ∅ bank (by decide)⟩

/-- The second mail account replaces the first one, whose password is nowhere. -/
theorem import_loses_mail :
    (main (exportOf [mail, workMail]) ∅).2 = none ∧
      ¬ Held (main (exportOf [mail, workMail]) ∅).1 mail := by
  refine ⟨rfl, fun h => ?_⟩
  have hcsv : (exportOf [mail, workMail]).readAll =
      .ok ([headerRow, mail, workMail].map KeepassEntry.fields) := rfl
  rw [main_eq hcsv rfl] at h
  have hlook := lookup_of_held h
  have hlast : (written [mail, workMail] ∅).lookup (cubbyhole mail.title) =
      some (secretOf workMail) := Finmap.lookup_insert _
  rw [hlast] at hlook
  exact absurd (secretOf_inj (Option.some.inj hlook)) (by decide)

end VaultSecrets
