import GoExperiments.Lib.GoBasic
import GoExperiments.Lib.Session
import Mathlib.Data.Int.Notation

/-!
# Changing an LDAP password (`ldap-explore/main.go`)

The handler behind the password form: it compares the submitted passwords, asks zxcvbn for
the strength of the new one, finds the user with an administrator's bind, binds as the user to
check the current password, and has the password modified on a second connection.

A *session* is what is said to the directory server while one form is handled.  The server is
arbitrary: each of its answers may depend on everything said before.  Only simple binds follow a
rule (`Server.bind_ok_iff`): an empty password is not looked at, any other has to be the one of
the DN (RFC 4513, section 5.1.2).

* `isValidLDAPUser_wp` — what is known of the user when the check has passed.
* `handle_entitled` — all that is said while a form is handled: what is known of every password
  modification, and that every search is for the username of the form.
* `modifies_only_authorised_iff` — a form modifies the passwords of authenticated users only,
  whatever the server does, exactly when its current password is not empty or it is turned away
  before the server is asked.
-/

namespace Ldap

open Session Go

/-! ## Configuration and form -/

/-- A format with one `%s` and no other verb. -/
structure Template where
  before : Bytes
  after : Bytes
  before_plain : 37 ∉ before
  after_plain : 37 ∉ after

/-- `fmt.Sprintf` with such a format. -/
def Template.sprintf (t : Template) (arg : Bytes) : Bytes := t.before ++ arg ++ t.after

/-- The settings that are read from `conf.json`. -/
structure LdapConfig where
  ldapURI : Bytes
  bindDN : Bytes
  bindPW : Bytes
  baseDN : Bytes
  searchDN : Template

/-- `conf.json`. -/
def conf : LdapConfig where
  ldapURI := ascii "localhost:389"
  bindDN := ascii "cn=wow,dc=blizzard,dc=local"
  bindPW := ascii "p@ssw0rd"
  baseDN := ascii "dc=blizzard,dc=local"
  searchDN :=
    { before := ascii "(&(objectClass=organizationalPerson)(uid="
      after := ascii "))"
      before_plain := by decide +kernel
      after_plain := by decide +kernel }

/-- The request: its method and the four form values, empty when they are missing. -/
structure Form where
  method : Bytes
  username : Bytes
  currentpass : Bytes
  newpass1 : Bytes
  newpass2 : Bytes
deriving DecidableEq

/-- A user who changes a password; the DN is known after the search. -/
structure LdapPasswdUser where
  username : Bytes
  currentPasswd : Bytes
  newPasswd : Bytes
  ldapUserDN : Bytes
deriving DecidableEq

/-- The user of a form. -/
def newLdapPasswdUser (u c n : Bytes) : LdapPasswdUser := ⟨u, c, n, []⟩

/-- The page with the form, or a text. -/
inductive Reply
  | passwdChangeHTML
  | text (t : Bytes)
deriving DecidableEq

/-! ## The directory server -/

/-- What was asked and how it was answered; a search with the DNs of the entries found. -/
inductive Event
  | dial (uri : Bytes) (answer : Except Bytes Unit)
  | startTLS (answer : Except Bytes Unit)
  | bind (dn pw : Bytes) (answer : Except Bytes Unit)
  | search (base filter : Bytes) (answer : Except Bytes (List Bytes))
  | passwordModify (dn old new : Bytes) (answer : Except Bytes Unit)

/-- A server: the passwords of the DNs while the form is handled, and its answers. -/
structure Server where
  passwords : Bytes → Option Bytes
  dial : List Event → Bytes → Except Bytes Unit
  startTLS : List Event → Except Bytes Unit
  bind : List Event → Bytes → Bytes → Except Bytes Unit
  search : List Event → Bytes → Bytes → Except Bytes (List Bytes)
  passwordModify : List Event → Bytes → Bytes → Bytes → Except Bytes Unit
  bind_ok_iff : ∀ log dn pw, bind log dn pw = .ok () ↔ pw = [] ∨ passwords dn = some pw

/-- Programs that talk to the server. -/
abbrev Call := Session Event Bytes

section Calls

variable (srv : Server)

/-- `ldap.Dial`. -/
def Server.callDial (uri : Bytes) : Call Unit := exchange (srv.dial · uri) (.dial uri)

/-- `StartTLS`, without verification of the certificate. -/
def Server.callStartTLS : Call Unit := exchange srv.startTLS .startTLS

/-- `Bind`. -/
def Server.callBind (dn pw : Bytes) : Call Unit := exchange (srv.bind · dn pw) (.bind dn pw)

/-- `Search`, for the DNs in the whole subtree. -/
def Server.callSearch (base filter : Bytes) : Call (List Bytes) :=
  exchange (srv.search · base filter) (.search base filter)

/-- `PasswordModify`. -/
def Server.callPasswordModify (dn old new : Bytes) : Call Unit :=
  exchange (srv.passwordModify · dn old new) (.passwordModify dn old new)

end Calls

/-! ## The handler -/

/-- The answer to a new password that is the old one. -/
def errPasswordReuse : Bytes := ascii "Old password reused"

/-- The answer to a new password that is too easy to guess. -/
def errWeakPasswordUsed : Bytes := ascii "Weak password provided"

/-- The answer to everything that goes wrong while the user is looked up. -/
def errInvalidUser : Bytes := ascii "Invalid User"

/-- The answer to two new passwords that differ. -/
def errPasswordDontMatch : Bytes := ascii "New passwords do not match"

/-- The answer after the modification. -/
def passwordModified : Bytes := ascii "Your password has been modified"

/-- The text of `errors.Wrapf`. -/
def wrapf (message : String) (err : Bytes) : Bytes :=
  ascii message ++ ascii ": " ++ err

section Handler

variable (config : LdapConfig) (srv : Server)

/-- A connection, bound as the service itself. -/
def bootstrapLdapClient : Call Unit := do
  srv.callDial config.ldapURI
  srv.callStartTLS
  mapError (wrapf "failed to bind with ldap") (srv.callBind config.bindDN config.bindPW)

/-- The user with its DN; the boolean of the source is true whenever there is no error. -/
def isValidLDAPUser (ldu : LdapPasswdUser) : Call LdapPasswdUser := do
  bootstrapLdapClient config srv
  let entries ← mapError (wrapf "error occurred when searching")
    (srv.callSearch config.baseDN (config.searchDN.sprintf ldu.username))
  match entries with
  | [userDN] =>
      mapError (wrapf "invalid user") (srv.callBind userDN ldu.currentPasswd)
      srv.callBind config.bindDN config.bindPW
      if userDN.length > 0 then pure { ldu with ldapUserDN := userDN } else fail errInvalidUser
  | _ => fail errInvalidUser

/-- The modification, on a connection of its own. -/
def changeLdapPasswd (ldu : LdapPasswdUser) : Call Unit := do
  bootstrapLdapClient config srv
  srv.callPasswordModify ldu.ldapUserDN ldu.currentPasswd ldu.newPasswd

/-- The search and the modification, with the answer to the form. -/
def changePassword (ldu : LdapPasswdUser) : Call Reply := do
  match ← attempt (isValidLDAPUser config srv ldu) with
  | .error _ => pure (.text errInvalidUser)
  | .ok ldu =>
      match ← attempt (changeLdapPasswd config srv ldu) with
      | .error err => pure (.text err)
      | .ok _ => pure (.text passwordModified)

end Handler

/-- The refusal, if there is one. -/
def checkPasswdLen (currentPasswd newPasswd1 newPasswd : Bytes) : Option Bytes :=
  if currentPasswd = newPasswd1 ∨ currentPasswd = newPasswd then some errPasswordReuse
  else if newPasswd1 ≠ newPasswd then some errPasswordDontMatch
  else none

/-- `score` is the score of zxcvbn. -/
def checkStrength (score : Bytes → ℤ) (newPasswd : Bytes) : Option Bytes :=
  if score newPasswd < 3 then some errWeakPasswordUsed else none

/-- `strings.ToLower` on ASCII; no other letter becomes one of `post`. -/
def toLower (b : Bytes) : Bytes := b.map fun c => if 65 ≤ c ∧ c ≤ 90 then c + 32 else c

/-- The handler of the form: the checks in their order, then the directory. -/
def changePasswordHandleFunc (config : LdapConfig) (srv : Server) (score : Bytes → ℤ)
    (req : Form) : Call Reply :=
  if toLower req.method = ascii "post" then
    match checkPasswdLen req.currentpass req.newpass1 req.newpass2 with
    | some err => pure (.text err)
    | none =>
        match checkStrength score req.newpass2 with
        | some err => pure (.text err)
        | none =>
            changePassword config srv
              (newLdapPasswdUser req.username req.currentpass req.newpass2)
  else pure .passwdChangeHTML

/-! ## What each call leads to -/

/-- Forms that get past the checks of the handler. -/
structure Passes (score : Bytes → ℤ) (req : Form) : Prop where
  post : toLower req.method = ascii "post"
  fresh₁ : req.currentpass ≠ req.newpass1
  fresh₂ : req.currentpass ≠ req.newpass2
  same : req.newpass1 = req.newpass2
  strong : 3 ≤ score req.newpass2

section Specs

variable {config : LdapConfig} {srv : Server} {username : Bytes} {log : List Event}

/-- No modification, and no search but the one for the user. -/
def Harmless (config : LdapConfig) (username : Bytes) : Event → Prop
  | .search base filter _ => base = config.baseDN ∧ filter = config.searchDN.sprintf username
  | .passwordModify .. => False
  | _ => True

/-- More was said, all of it harmless. -/
structure Quiet (config : LdapConfig) (username : Bytes) (log log' : List Event) : Prop where
  kept : ∀ e ∈ log, e ∈ log'
  said : ∀ e ∈ log', e ∈ log ∨ Harmless config username e

theorem Quiet.refl (log : List Event) : Quiet config username log log :=
  ⟨fun _ he => he, fun _ he => .inl he⟩

theorem Quiet.concat {log' : List Event} (h : Quiet config username log log') {e : Event}
    (he : Harmless config username e) : Quiet config username log (log' ++ [e]) where
  kept := fun e' hmem => List.mem_append_left _ (h.kept e' hmem)
  said := by
    intro e' hmem
    obtain hmem | hmem := List.mem_append.1 hmem
    · exact h.said e' hmem
    · rw [List.mem_singleton.1 hmem]
      exact .inr he

theorem Quiet.trans {log₁ log₂ : List Event} (h₁ : Quiet config username log log₁)
    (h₂ : Quiet config username log₁ log₂) : Quiet config username log log₂ where
  kept := fun e he => h₂.kept e (h₁.kept e he)
  said := fun e he => (h₂.said e he).elim (h₁.said e) .inr

/-- Whom the server lets in. -/
def Server.LetsIn (srv : Server) (dn pw : Bytes) : Prop := pw = [] ∨ srv.passwords dn = some pw

theorem callBind_wp {dn pw : Bytes} {Q : Except Bytes Unit → List Event → Prop}
    (h : ∀ r, (r = .ok () → srv.LetsIn dn pw) → Q r (log ++ [.bind dn pw r])) :
    wp (srv.callBind dn pw) Q log :=
  h _ (srv.bind_ok_iff log dn pw).1

/-- Setting up the client is harmless. -/
theorem bootstrapLdapClient_wp (username : Bytes) {Q : Except Bytes Unit → List Event → Prop}
    (h : ∀ r log', Quiet config username log log' → Q r log') :
    wp (bootstrapLdapClient config srv) Q log := by
  simp only [bootstrapLdapClient, Server.callDial, Server.callStartTLS, wp_bind, wp_exchange]
  have hdial : ∀ r, Quiet config username log (log ++ [.dial config.ldapURI r]) :=
    fun r => (Quiet.refl log).concat trivial
  cases srv.dial log config.ldapURI with
  | error e => exact h _ _ (hdial _)
  | ok =>
      simp only [next_ok, wp_bind, wp_exchange]
      cases srv.startTLS (log ++ [.dial config.ldapURI (.ok ())]) with
      | error e => exact h _ _ ((hdial _).concat trivial)
      | ok =>
          rw [next_ok, wp_mapError]
          refine callBind_wp fun r _ => h _ _ ?_
          exact ((hdial (.ok ())).concat (e := .startTLS (.ok ())) trivial).concat trivial

/-- What a check of the user says: all of it was harmless, and a user who passes was found alone and
let in with the submitted password. -/
structure Checked (config : LdapConfig) (srv : Server) (ldu : LdapPasswdUser) (log : List Event)
    (r : Except Bytes LdapPasswdUser) (log' : List Event) : Prop where
  quiet : Quiet config ldu.username log log'
  found : ∀ ldu', r = .ok ldu' → ∃ dn, ldu' = { ldu with ldapUserDN := dn } ∧
    .search config.baseDN (config.searchDN.sprintf ldu.username) (.ok [dn]) ∈ log' ∧
    srv.LetsIn dn ldu.currentPasswd

theorem Checked.of_error {ldu : LdapPasswdUser} {err : Bytes} {log' : List Event}
    (h : Quiet config ldu.username log log') : Checked config srv ldu log (.error err) log' :=
  ⟨h, fun _ hok => by cases hok⟩

/-- **The check of the user.** -/
theorem isValidLDAPUser_wp {ldu : LdapPasswdUser}
    {Q : Except Bytes LdapPasswdUser → List Event → Prop}
    (h : ∀ r log', Checked config srv ldu log r log' → Q r log') :
    wp (isValidLDAPUser config srv ldu) Q log := by
  rw [isValidLDAPUser, wp_bind]
  refine bootstrapLdapClient_wp ldu.username fun r log₁ hlog₁ => ?_
  cases r with
  | error e => exact h _ _ (.of_error hlog₁)
  | ok =>
      rw [next_ok, wp_bind, Server.callSearch, wp_mapError, wp_exchange]
      generalize srv.search log₁ config.baseDN (config.searchDN.sprintf ldu.username) = answer
      have hlog₂ := hlog₁.concat (e := .search config.baseDN
        (config.searchDN.sprintf ldu.username) answer) ⟨rfl, rfl⟩
      match answer with
      | .error e => exact h _ _ (.of_error hlog₂)
      | .ok [] => exact h _ _ (.of_error hlog₂)
      | .ok (_ :: _ :: _) => exact h _ _ (.of_error hlog₂)
      | .ok [dn] =>
          simp only [Except.mapError, next_ok, wp_bind, wp_mapError]
          -- the bind as the user, then the bind as the administrator again
          refine callBind_wp fun r hr => ?_
          cases r with
          | error e => exact h _ _ (.of_error (hlog₂.concat trivial))
          | ok =>
              simp only [next_ok, wp_bind]
              refine callBind_wp fun r _ => ?_
              have hlog₄ := (hlog₂.concat (e := .bind dn ldu.currentPasswd (.ok ())) trivial).concat
                (e := .bind config.bindDN config.bindPW r) trivial
              cases r with
              | error e => exact h _ _ (.of_error hlog₄)
              | ok =>
                  rw [next_ok]
                  split
                  · rw [wp_pure]
                    refine h _ _ ⟨hlog₄, fun ldu' hok => ⟨dn, (Except.ok.inj hok).symm, ?_, hr rfl⟩⟩
                    simp
                  · rw [wp_fail]
                    exact h _ _ (.of_error hlog₄)

/-- At most one modification, the last thing said. -/
theorem changeLdapPasswd_wp {ldu : LdapPasswdUser} {Q : Except Bytes Unit → List Event → Prop}
    (hquiet : ∀ r log', Quiet config ldu.username log log' → Q r log')
    (hmod : ∀ r log', Quiet config ldu.username log log' → Q r (log' ++
      [.passwordModify ldu.ldapUserDN ldu.currentPasswd ldu.newPasswd r])) :
    wp (changeLdapPasswd config srv ldu) Q log := by
  rw [changeLdapPasswd, wp_bind]
  refine bootstrapLdapClient_wp ldu.username fun r log' hlog' => ?_
  cases r with
  | error e => exact hquiet _ _ hlog'
  | ok => exact hmod _ _ hlog'

/-- All that is said: harmless things, and modifications of a user who was found alone and let
in. -/
def Entitled (config : LdapConfig) (srv : Server) (ldu : LdapPasswdUser) (log : List Event) :
    Prop :=
  ∀ e ∈ log, Harmless config ldu.username e ∨ ∃ dn r,
    e = .passwordModify dn ldu.currentPasswd ldu.newPasswd r ∧
    .search config.baseDN (config.searchDN.sprintf ldu.username) (.ok [dn]) ∈ log ∧
    srv.LetsIn dn ldu.currentPasswd

theorem changePassword_wp (ldu : LdapPasswdUser) :
    wp (changePassword config srv ldu) (fun _ log => Entitled config srv ldu log) [] := by
  have hharmless : ∀ {log}, Quiet config ldu.username [] log → ∀ e ∈ log,
      Harmless config ldu.username e :=
    fun hlog e he => (hlog.said e he).resolve_left List.not_mem_nil
  rw [changePassword, wp_bind, wp_attempt]
  refine isValidLDAPUser_wp fun r log₁ hchecked => ?_
  cases r with
  | error e => exact fun e he => .inl (hharmless hchecked.quiet e he)
  | ok ldu' =>
      obtain ⟨dn, rfl, hsearch, hin⟩ := hchecked.found ldu' rfl
      rw [next_ok, wp_bind, wp_attempt]
      refine changeLdapPasswd_wp (fun r log₂ hlog₂ => ?quiet) fun r log₂ hlog₂ => ?modified
      case quiet =>
        have hent : Entitled config srv ldu log₂ := fun e he =>
          .inl (hharmless (hchecked.quiet.trans hlog₂) e he)
        cases r <;> exact hent
      case modified =>
        have hent : Entitled config srv ldu (log₂ ++
            [.passwordModify dn ldu.currentPasswd ldu.newPasswd r]) := by
          intro e he
          obtain he | he := List.mem_append.1 he
          · exact .inl (hharmless (hchecked.quiet.trans hlog₂) e he)
          · have hkept := hlog₂.kept _ hsearch
            exact .inr ⟨dn, r, List.mem_singleton.1 he, List.mem_append_left _ hkept, hin⟩
        cases r <;> exact hent

end Specs

section Forms

variable {config : LdapConfig} {srv : Server} {score : Bytes → ℤ} {req : Form}

theorem checkPasswdLen_eq_none_iff {currentPasswd newPasswd1 newPasswd : Bytes} :
    checkPasswdLen currentPasswd newPasswd1 newPasswd = none ↔
      currentPasswd ≠ newPasswd1 ∧ currentPasswd ≠ newPasswd ∧ newPasswd1 = newPasswd := by
  unfold checkPasswdLen
  by_cases hold : currentPasswd = newPasswd1 ∨ currentPasswd = newPasswd
  · rw [if_pos hold]
    refine ⟨fun h => (by cases h), fun ⟨h₁, h₂, _⟩ => ?_⟩
    exact absurd hold (not_or.2 ⟨h₁, h₂⟩)
  · rw [if_neg hold]
    obtain ⟨h₁, h₂⟩ := not_or.1 hold
    by_cases hsame : newPasswd1 = newPasswd <;> simp [hsame, h₂]

theorem checkStrength_eq_none_iff {newPasswd : Bytes} :
    checkStrength score newPasswd = none ↔ 3 ≤ score newPasswd := by
  unfold checkStrength
  by_cases hweak : score newPasswd < 3
  · simp [hweak]
  · simp [hweak, Int.not_lt.1 hweak]

theorem handle_of_passes (h : Passes score req) :
    changePasswordHandleFunc config srv score req =
      changePassword config srv (newLdapPasswdUser req.username req.currentpass req.newpass2) := by
  have hlen := checkPasswdLen_eq_none_iff.2 ⟨h.fresh₁, h.fresh₂, h.same⟩
  have hstrong := checkStrength_eq_none_iff.2 h.strong
  simp only [changePasswordHandleFunc, if_pos h.post, hlen, hstrong]

/-- A form that does not pass is answered without the server. -/
theorem handle_of_not_passes (h : ¬ Passes score req) (log : List Event) :
    (changePasswordHandleFunc config srv score req log).2 = log := by
  unfold changePasswordHandleFunc
  by_cases hpost : toLower req.method = ascii "post"
  · rw [if_pos hpost]
    cases hlen : checkPasswdLen req.currentpass req.newpass1 req.newpass2 with
    | some err => rfl
    | none =>
        cases hstrong : checkStrength score req.newpass2 with
        | some err => rfl
        | none =>
            obtain ⟨hfresh₁, hfresh₂, hsame⟩ := checkPasswdLen_eq_none_iff.1 hlen
            exact absurd ⟨hpost, hfresh₁, hfresh₂, hsame, checkStrength_eq_none_iff.1 hstrong⟩ h
  · rw [if_neg hpost]
    rfl

/-- What is known when a password is modified. -/
structure Authorised (config : LdapConfig) (srv : Server) (score : Bytes → ℤ) (req : Form)
    (log : List Event) (dn : Bytes) : Prop where
  password : srv.passwords dn = some req.currentpass
  alone : .search config.baseDN (config.searchDN.sprintf req.username) (.ok [dn]) ∈ log
  same : req.newpass1 = req.newpass2
  fresh : req.newpass2 ≠ req.currentpass
  strong : 3 ≤ score req.newpass2

/-- **All that is said** while a form is handled. -/
theorem handle_entitled : Entitled config srv
    (newLdapPasswdUser req.username req.currentpass req.newpass2)
    (changePasswordHandleFunc config srv score req []).2 := by
  by_cases hpass : Passes score req
  · rw [handle_of_passes hpass]
    exact changePassword_wp _
  · rw [handle_of_not_passes hpass]
    exact fun _ he => absurd he List.not_mem_nil

/-- **Every modification**, with whatever password the user was let in. -/
theorem handle_modifies {dn old new : Bytes} {r : Except Bytes Unit}
    (h : .passwordModify dn old new r ∈ (changePasswordHandleFunc config srv score req []).2) :
    Passes score req ∧ srv.LetsIn dn req.currentpass ∧
      .search config.baseDN (config.searchDN.sprintf req.username) (.ok [dn]) ∈
        (changePasswordHandleFunc config srv score req []).2 := by
  have hpass : Passes score req := by
    by_contra hno
    rw [handle_of_not_passes hno] at h
    exact absurd h List.not_mem_nil
  obtain hharmless | ⟨dn', r', heq, hsearch, hin⟩ := handle_entitled _ h
  · exact hharmless.elim
  · cases heq
    exact ⟨hpass, hin, hsearch⟩

/-- Every search is the one for the username of the form. -/
theorem handle_searches {base filter : Bytes} {r : Except Bytes (List Bytes)}
    (h : .search base filter r ∈ (changePasswordHandleFunc config srv score req []).2) :
    filter = config.searchDN.sprintf req.username := by
  obtain hharmless | ⟨dn', r', heq, -⟩ := handle_entitled _ h
  · exact hharmless.2
  · cases heq

end Forms

/-! ## The empty password -/

/-- The DN of another user. -/
def otherDN (config : LdapConfig) : Bytes := ascii "uid=other," ++ config.bindDN

theorem length_otherDN (config : LdapConfig) :
    (otherDN config).length = 10 + config.bindDN.length := by
  have huid : (ascii "uid=other,").length = 10 := by decide +kernel
  rw [otherDN, List.length_append, huid]

theorem otherDN_ne (config : LdapConfig) : otherDN config ≠ config.bindDN := by
  intro h
  have hlen := congrArg List.length h
  rw [length_otherDN] at hlen
  omega

/-- The password of a user. -/
def secret : Bytes := ascii "secret"

theorem secret_ne_nil : secret ≠ [] := by decide +kernel

/-- The error of a bind with a wrong password. -/
def invalidCredentials : Bytes := ascii "LDAP Result Code 49 \"Invalid Credentials\": "

/-- A server that finds one user, whose password is `secret`, and refuses nothing but wrong
passwords. -/
def strictServer (config : LdapConfig) : Server where
  passwords dn := some (if dn = config.bindDN then config.bindPW else secret)
  dial _ _ := .ok ()
  startTLS _ := .ok ()
  bind _ dn pw :=
    if pw = [] ∨ (if dn = config.bindDN then config.bindPW else secret) = pw then .ok ()
    else .error invalidCredentials
  search _ _ _ := .ok [otherDN config]
  passwordModify _ _ _ _ := .ok ()
  bind_ok_iff := by
    intro log dn pw
    rw [Option.some.injEq]
    by_cases h : pw = [] ∨ (if dn = config.bindDN then config.bindPW else secret) = pw
    · rw [if_pos h]
      exact ⟨fun _ => h, fun _ => rfl⟩
    · rw [if_neg h]
      exact ⟨fun hok => (by cases hok), fun hin => absurd hin h⟩

section Strict

variable {config : LdapConfig} {log : List Event}

theorem strictServer_bind_admin (log : List Event) :
    (strictServer config).bind log config.bindDN config.bindPW = .ok () :=
  ((strictServer config).bind_ok_iff log _ _).2 (.inr (by simp [strictServer]))

theorem strictServer_bootstrap {Q : Except Bytes Unit → List Event → Prop}
    (h : ∀ log', Q (.ok ()) log') :
    wp (bootstrapLdapClient config (strictServer config)) Q log := by
  rw [bootstrapLdapClient, wp_bind, Server.callDial, wp_exchange]
  change wp _ Q _
  rw [wp_bind, Server.callStartTLS, wp_exchange]
  change wp _ Q _
  rw [wp_mapError, Server.callBind, wp_exchange, strictServer_bind_admin]
  exact h _

/-- Without a password the other user passes for valid. -/
theorem strictServer_isValid {ldu : LdapPasswdUser} (hempty : ldu.currentPasswd = [])
    {Q : Except Bytes LdapPasswdUser → List Event → Prop}
    (h : ∀ log', Q (.ok { ldu with ldapUserDN := otherDN config }) log') :
    wp (isValidLDAPUser config (strictServer config) ldu) Q log := by
  rw [isValidLDAPUser, wp_bind]
  refine strictServer_bootstrap fun log₁ => ?_
  rw [next_ok, wp_bind, Server.callSearch, wp_mapError, wp_exchange]
  change wp _ Q _
  have huser : ∀ log, (strictServer config).bind log (otherDN config) ldu.currentPasswd = .ok () :=
    fun log => ((strictServer config).bind_ok_iff log _ _).2 (.inl hempty)
  rw [wp_bind, wp_mapError, Server.callBind, wp_exchange, huser]
  change wp _ Q _
  rw [wp_bind, Server.callBind, wp_exchange, strictServer_bind_admin, next_ok, if_pos, wp_pure]
  · exact h _
  · rw [length_otherDN]
    omega

theorem strictServer_modifies (config : LdapConfig) (username newPasswd : Bytes) :
    .passwordModify (otherDN config) [] newPasswd (.ok ()) ∈
      (changePassword config (strictServer config)
        (newLdapPasswdUser username [] newPasswd) []).2 := by
  change wp (changePassword config (strictServer config) (newLdapPasswdUser username [] newPasswd))
    (fun _ log => _ ∈ log) []
  rw [changePassword, wp_bind, wp_attempt]
  refine strictServer_isValid rfl fun log₁ => ?_
  rw [next_ok, wp_bind, wp_attempt, changeLdapPasswd, wp_bind]
  refine strictServer_bootstrap fun log₂ => ?_
  rw [next_ok, Server.callPasswordModify, wp_exchange]
  exact List.mem_append_right _ (List.mem_singleton_self _)

end Strict

/-- **Modifications for authenticated users only.** -/
theorem modifies_only_authorised_iff (config : LdapConfig) (score : Bytes → ℤ) (req : Form) :
    (∀ (srv : Server) (dn old new : Bytes) (r : Except Bytes Unit),
      .passwordModify dn old new r ∈ (changePasswordHandleFunc config srv score req []).2 →
        Authorised config srv score req (changePasswordHandleFunc config srv score req []).2 dn) ↔
    req.currentpass ≠ [] ∨ ¬ Passes score req := by
  constructor
  · intro h
    by_contra hno
    simp only [not_or, not_not] at hno
    obtain ⟨hempty, hpass⟩ := hno
    have hmod := strictServer_modifies config req.username req.newpass2
    rw [← hempty, ← handle_of_passes hpass] at hmod
    have hpw := (h _ _ _ _ _ hmod).password
    rw [hempty] at hpw
    simp [strictServer, otherDN_ne, secret_ne_nil] at hpw
  · rintro hcond srv dn old new r hmod
    obtain ⟨hpass, hin, hsearch⟩ := handle_modifies hmod
    refine ⟨?_, hsearch, hpass.same, hpass.fresh₂.symm, hpass.strong⟩
    obtain hne | hno := hcond
    · exact hin.resolve_left hne
    · exact absurd hpass hno

/-- A form with a good new password and no current one. -/
def emptyForm : Form where
  method := ascii "POST"
  username := ascii "other"
  currentpass := []
  newpass1 := ascii "correct horse battery staple"
  newpass2 := ascii "correct horse battery staple"

/-- Sent without a password, the form sets the one of a user whose password it is not. -/
theorem empty_password_modifies :
    .passwordModify (otherDN conf) emptyForm.currentpass emptyForm.newpass2 (.ok ()) ∈
        (changePasswordHandleFunc conf (strictServer conf) (fun _ => 4) emptyForm []).2 ∧
      (strictServer conf).passwords (otherDN conf) = some secret ∧
      secret ≠ emptyForm.currentpass := by
  have hpass : Passes (fun _ => 4) emptyForm :=
    ⟨by decide +kernel, by decide +kernel, by decide +kernel, rfl, by decide⟩
  refine ⟨?_, by simp [strictServer, otherDN_ne], secret_ne_nil⟩
  rw [handle_of_passes hpass]
  exact strictServer_modifies conf emptyForm.username emptyForm.newpass2

end Ldap
