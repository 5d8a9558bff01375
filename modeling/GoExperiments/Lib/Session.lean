import Mathlib.Data.List.Basic

/-!
# Sessions

A program that talks to another party: every exchange is put on a log, the answers may depend
on all that was said before, and an error ends the program.

* `Session` — such programs, with their monad; `exchange`, `fail`, `mapError`, `attempt`.
* `wp x Q log` — begun with this log, `x` ends with a result and a log that meet `Q`.  The
  rules for the program's constructs are simp lemmas, so a session is run symbolically.
-/

universe u

/-- Programs with a log of exchanges of type `V` and errors of type `E`. -/
def Session (V E α : Type u) : Type u := List V → Except E α × List V

namespace Session

variable {V E α β : Type u}

/-- A result, with nothing said. -/
protected def pure (a : α) : Session V E α := fun log => (.ok a, log)

/-- The end, with an error. -/
def fail (e : E) : Session V E α := fun log => (.error e, log)

/-- One program after the other, unless the first ends in an error. -/
protected def bind (x : Session V E α) (f : α → Session V E β) : Session V E β := fun log =>
  match x log with
  | (.ok a, log') => f a log'
  | (.error e, log') => (.error e, log')

instance : Monad (Session V E) where
  pure := Session.pure
  bind := Session.bind

/-- One exchange: the answer to what was asked, and what is put on the log. -/
def exchange (ask : List V → Except E α) (record : Except E α → V) : Session V E α := fun log =>
  (ask log, log ++ [record (ask log)])

/-- The error with more said about it. -/
def mapError (f : E → E) (x : Session V E α) : Session V E α := fun log =>
  ((x log).1.mapError f, (x log).2)

/-- The result as a value, errors included. -/
def attempt (x : Session V E α) : Session V E (Except E α) := fun log =>
  (.ok (x log).1, (x log).2)

/-! ## Postconditions -/

variable {Q : Except E α → List V → Prop} {log : List V}

/-- Begun with `log`, the program ends in a way that meets `Q`. -/
def wp (x : Session V E α) (Q : Except E α → List V → Prop) (log : List V) : Prop :=
  Q (x log).1 (x log).2

/-- What a `bind` asks of its first half. -/
def next (f : α → Session V E β) (Q : Except E β → List V → Prop) : Except E α → List V → Prop
  | .ok a, log => wp (f a) Q log
  | .error e, log => Q (.error e) log

@[simp] theorem next_ok (f : α → Session V E β) (Q : Except E β → List V → Prop) (a : α)
    (log : List V) : next f Q (.ok a) log ↔ wp (f a) Q log :=
  Iff.rfl

@[simp] theorem wp_pure (a : α) : wp (Pure.pure a : Session V E α) Q log ↔ Q (.ok a) log :=
  Iff.rfl

@[simp] theorem wp_fail (e : E) : wp (fail e : Session V E α) Q log ↔ Q (.error e) log :=
  Iff.rfl

@[simp] theorem wp_bind (x : Session V E β) (f : β → Session V E α) :
    wp (x >>= f) Q log ↔ wp x (next f Q) log := by
  change Q (Session.bind x f log).1 (Session.bind x f log).2 ↔ next f Q (x log).1 (x log).2
  unfold Session.bind
  obtain ⟨r, log'⟩ := x log
  cases r <;> exact Iff.rfl

@[simp] theorem wp_exchange (ask : List V → Except E α) (record : Except E α → V) :
    wp (exchange ask record) Q log ↔ Q (ask log) (log ++ [record (ask log)]) :=
  Iff.rfl

@[simp] theorem wp_mapError (f : E → E) (x : Session V E α) :
    wp (mapError f x) Q log ↔ wp x (fun r => Q (r.mapError f)) log :=
  Iff.rfl

@[simp] theorem wp_attempt {Q : Except E (Except E α) → List V → Prop} (x : Session V E α) :
    wp (attempt x) Q log ↔ wp x (fun r => Q (.ok r)) log :=
  Iff.rfl

end Session
