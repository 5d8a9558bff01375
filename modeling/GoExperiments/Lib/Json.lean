import Mathlib.Data.Finset.Sort
import Mathlib.Data.List.Lex
import GoExperiments.Lib.GoBasic
import GoExperiments.Lib.GoMap
import GoExperiments.Lib.Utf8

/-!
# Go's JSON for maps of strings

`json.Marshal` of a `map[string]string` writes an object with the keys in byte order, and
`json.Unmarshal` into such a map reads one back, a later entry replacing an earlier one
with the same key.  Strings are text on this way: the writer escapes what JSON and HTML
want escaped and writes U+FFFD for every byte that is not valid UTF-8.

* `escape`, `unquote` — a string on its way out and back; `unquote_escape` says that what
  comes back is the string with its invalid bytes replaced.
* `writeObject`, `readObject` — the entries of an object; `readObject_writeObject`.
* `marshal`, `unmarshal` — the two calls; `unmarshal_marshal` says which map comes back,
  and `unmarshal_marshal_iff` that it is the same map exactly if all of it is valid UTF-8.
-/

namespace GoJson

open GoUtf8 GoMap Go

/-! ## Escapes -/

/-- The value of a hexadecimal digit. -/
def hexVal (b : UInt8) : Option ℕ :=
  if 0x30 ≤ b && b ≤ 0x39 then some (b.toNat - 0x30)
  else if 0x61 ≤ b && b ≤ 0x66 then some (b.toNat - 0x57)
  else if 0x41 ≤ b && b ≤ 0x46 then some (b.toNat - 0x37)
  else none

/-- The escape `\uXXXX`. -/
def u4 (n : ℕ) : List UInt8 :=
  [0x5C, 0x75, hexDigit (n / 4096 % 16), hexDigit (n / 256 % 16), hexDigit (n / 16 % 16),
    hexDigit (n % 16)]

/-- The number of four hexadecimal digits. -/
def getu4 (h1 h2 h3 h4 : UInt8) : Option ℕ :=
  match hexVal h1, hexVal h2, hexVal h3, hexVal h4 with
  | some d1, some d2, some d3, some d4 => some (((d1 * 16 + d2) * 16 + d3) * 16 + d4)
  | _, _, _, _ => none

theorem hexVal_hexDigit : ∀ d < 16, hexVal (hexDigit d) = some d := by decide

theorem getu4_u4 {n : ℕ} (h : n < 65536) :
    getu4 (hexDigit (n / 4096 % 16)) (hexDigit (n / 256 % 16)) (hexDigit (n / 16 % 16))
      (hexDigit (n % 16)) = some n := by
  unfold getu4
  rw [hexVal_hexDigit _ (Nat.mod_lt _ (by decide)), hexVal_hexDigit _ (Nat.mod_lt _ (by decide)),
    hexVal_hexDigit _ (Nat.mod_lt _ (by decide)), hexVal_hexDigit _ (Nat.mod_lt _ (by decide))]
  show some _ = some n
  congr 1
  omega

/-- An ASCII byte inside a string, with HTML escaping on. -/
def escapeAscii (b : UInt8) : List UInt8 :=
  if b = 0x22 || b = 0x5C then [0x5C, b]
  else if b = 0x0A then [0x5C, 0x6E]
  else if b = 0x0D then [0x5C, 0x72]
  else if b = 0x09 then [0x5C, 0x74]
  else if b < 0x20 || b = 0x3C || b = 0x3E || b = 0x26 then u4 b.toNat
  else [b]

/-- U+2028 or U+2029 at the front of a string. -/
def lineSeparator : List UInt8 → Option ℕ
  | b0 :: b1 :: b2 :: _ =>
      if b0 = 0xE2 && b1 = 0x80 && b2 = 0xA8 then some 0x2028
      else if b0 = 0xE2 && b1 = 0x80 && b2 = 0xA9 then some 0x2029
      else none
  | _ => none

/-- The body of a JSON string, with `k` more bytes of the current rune to be copied, or
left out when they were escaped. -/
def escapeFrom : ℕ → Bool → List UInt8 → List UInt8
  | _, _, [] => []
  | k + 1, true, b :: bs => b :: escapeFrom k true bs
  | k + 1, false, _ :: bs => escapeFrom k false bs
  | 0, _, b :: bs =>
      if b < 0x80 then escapeAscii b ++ escapeFrom 0 true bs
      else
        match width (b :: bs), lineSeparator (b :: bs) with
        | 0, _ => u4 0xFFFD ++ escapeFrom 0 true bs
        | w + 1, none => b :: escapeFrom w true bs
        | w + 1, some r => u4 r ++ escapeFrom w false bs

/-- The body of a JSON string. -/
def escape (s : List UInt8) : List UInt8 := escapeFrom 0 true s

/-- `utf8.EncodeRune`. -/
def encodeRune (r : ℕ) : List UInt8 :=
  if r < 0x80 then [UInt8.ofNat r]
  else if r < 0x800 then [UInt8.ofNat (0xC0 + r / 64), UInt8.ofNat (0x80 + r % 64)]
  else if (0xD800 ≤ r && r < 0xE000) || 0x10FFFF < r then replacement
  else if r < 0x10000 then
    [UInt8.ofNat (0xE0 + r / 4096), UInt8.ofNat (0x80 + r / 64 % 64), UInt8.ofNat (0x80 + r % 64)]
  else
    [UInt8.ofNat (0xF0 + r / 262144), UInt8.ofNat (0x80 + r / 4096 % 64),
      UInt8.ofNat (0x80 + r / 64 % 64), UInt8.ofNat (0x80 + r % 64)]

/-- The byte of an escape of two characters. -/
def simpleEscape (c : UInt8) : Option UInt8 :=
  if c = 0x22 || c = 0x5C || c = 0x2F then some c
  else if c = 0x62 then some 0x08
  else if c = 0x66 then some 0x0C
  else if c = 0x6E then some 0x0A
  else if c = 0x72 then some 0x0D
  else if c = 0x74 then some 0x09
  else none

/-- Bytes in front of what has been read, the rest of the input aside. -/
def push (u : List UInt8) (r : Option (List UInt8 × List UInt8)) :
    Option (List UInt8 × List UInt8) :=
  r.map fun p => (u ++ p.1, p.2)

/-- The number of an escape `\uXXXX` at the front. -/
def u4At : List UInt8 → Option ℕ
  | c1 :: c2 :: h1 :: h2 :: h3 :: h4 :: _ =>
      if c1 = 0x5C && c2 = 0x75 then getu4 h1 h2 h3 h4 else none
  | _ => none

/-- What the escape stands for whose backslash has just been read, and how many bytes it
takes; a surrogate counts together with the one that has to follow it. -/
def escapeAt : List UInt8 → Option (List UInt8 × ℕ)
  | [] => none
  | c :: bs =>
      if c = 0x75 then
        match bs with
        | h1 :: h2 :: h3 :: h4 :: rest =>
            match getu4 h1 h2 h3 h4 with
            | none => none
            | some r =>
                if 0xD800 ≤ r && r < 0xE000 then
                  match u4At rest with
                  | none => some (replacement, 5)
                  | some r' =>
                      if r < 0xDC00 && 0xDC00 ≤ r' && r' < 0xE000 then
                        some (encodeRune ((r - 0xD800) * 1024 + (r' - 0xDC00) + 0x10000), 11)
                      else some (replacement, 5)
                else some (encodeRune r, 5)
        | _ => none
      else (simpleEscape c).map fun x => ([x], 1)

/-- The body of a JSON string up to its closing quote, and the input after it; `k` more
bytes of the current rune or escape are first copied or passed over. -/
def unquoteFrom : ℕ → Bool → List UInt8 → Option (List UInt8 × List UInt8)
  | _, _, [] => none
  | k + 1, true, b :: bs => push [b] (unquoteFrom k true bs)
  | k + 1, false, _ :: bs => unquoteFrom k false bs
  | 0, _, b :: bs =>
      if b = 0x22 then some ([], bs)
      else if b = 0x5C then
        match escapeAt bs with
        | none => none
        | some (u, n) => push u (unquoteFrom n false bs)
      else if b < 0x20 then none
      else if b < 0x80 then push [b] (unquoteFrom 0 true bs)
      else
        match width (b :: bs) with
        | 0 => push replacement (unquoteFrom 0 true bs)
        | w + 1 => push [b] (unquoteFrom w true bs)

/-- The string after an opening quote, and the input after its closing quote. -/
def unquote (s : List UInt8) : Option (List UInt8 × List UInt8) := unquoteFrom 0 true s

/-! ## A string out and back -/

theorem push_push (u v : List UInt8) (r : Option (List UInt8 × List UInt8)) :
    push u (push v r) = push (u ++ v) r := by
  cases r with
  | none => rfl
  | some p => simp [push]

theorem unquoteFrom_zero (copy : Bool) (s : List UInt8) : unquoteFrom 0 copy s = unquote s := by
  cases s with
  | nil => rfl
  | cons b bs => cases copy <;> rfl

theorem unquoteFrom_copy (u t : List UInt8) :
    unquoteFrom u.length true (u ++ t) = push u (unquote t) := by
  induction u with
  | nil =>
      show unquote t = push [] (unquote t)
      cases unquote t <;> rfl
  | cons b u ih =>
      show push [b] (unquoteFrom u.length true (u ++ t)) = _
      rw [ih, push_push]
      rfl

theorem unquoteFrom_pass (u t : List UInt8) :
    unquoteFrom u.length false (u ++ t) = unquote t := by
  induction u with
  | nil => exact unquoteFrom_zero false t
  | cons b u ih => exact ih

theorem unquote_quote (t : List UInt8) : unquote (0x22 :: t) = some ([], t) := rfl

/-- A byte that stands for itself. -/
theorem unquote_plain {b : UInt8} (t : List UInt8) (h1 : b ≠ 0x22) (h2 : b ≠ 0x5C)
    (h3 : ¬ b < 0x20) (h4 : b < 0x80) : unquote (b :: t) = push [b] (unquote t) := by
  simp only [unquote, unquoteFrom, h1, h2, h3, h4, if_false, if_true]

/-- An escape that is read whole. -/
theorem unquote_escape_cons {u e : List UInt8} (t : List UInt8)
    (h : escapeAt (e ++ t) = some (u, e.length)) :
    unquote (0x5C :: (e ++ t)) = push u (unquote t) := by
  show (match escapeAt (e ++ t) with
    | none => none
    | some (u, n) => push u (unquoteFrom n false (e ++ t))) = _
  rw [h]
  show push u (unquoteFrom e.length false (e ++ t)) = _
  rw [unquoteFrom_pass]

theorem unquote_simple {c x : UInt8} (t : List UInt8) (hc : c ≠ 0x75)
    (hx : simpleEscape c = some x) : unquote (0x5C :: c :: t) = push [x] (unquote t) := by
  refine unquote_escape_cons (e := [c]) t ?_
  show (if c = 0x75 then _ else _) = _
  rw [if_neg hc, hx]
  rfl

theorem unquote_u4 {n : ℕ} (t : List UInt8) (h : n < 65536) (hs : ¬ (0xD800 ≤ n ∧ n < 0xE000)) :
    unquote (u4 n ++ t) = push (encodeRune n) (unquote t) := by
  have hs' : ((decide (0xD800 ≤ n) && decide (n < 0xE000)) = true) = False := by
    rw [Bool.and_eq_true, decide_eq_true_eq, decide_eq_true_eq]
    exact eq_false hs
  refine unquote_escape_cons (e := [0x75, hexDigit (n / 4096 % 16), hexDigit (n / 256 % 16),
    hexDigit (n / 16 % 16), hexDigit (n % 16)]) t ?_
  simp only [List.cons_append, List.nil_append, escapeAt, getu4_u4 h, hs', if_true, if_false]
  rfl

/-- Outside ASCII, a rune is read as it stands. -/
theorem unquote_rune {b : UInt8} {u : List UInt8} (t : List UInt8) (hb : ¬ b < 0x80)
    (hu : IsRune (b :: u)) : unquote (b :: u ++ t) = push (b :: u) (unquote t) := by
  have h1 : b ≠ 0x22 := fun h => hb (by rw [h]; decide)
  have h2 : b ≠ 0x5C := fun h => hb (by rw [h]; decide)
  have h3 : ¬ b < 0x20 := fun h => hb (UInt8.lt_trans h (by decide))
  have hw : width (b :: (u ++ t)) = u.length + 1 := hu.2 t
  show unquoteFrom 0 true (b :: (u ++ t)) = _
  simp only [unquoteFrom, h1, h2, h3, hb, if_false, hw]
  rw [unquoteFrom_copy, push_push]
  rfl

/-- An ASCII byte comes back, escaped or not. -/
theorem unquote_escapeAscii {b : UInt8} (t : List UInt8) (hb : b < 0x80) :
    unquote (escapeAscii b ++ t) = push [b] (unquote t) := by
  unfold escapeAscii
  split_ifs with h1 h2 h3 h4 h5
  · rw [Bool.or_eq_true, decide_eq_true_eq, decide_eq_true_eq] at h1
    rcases h1 with rfl | rfl
    · exact unquote_simple t (by decide) (by decide)
    · exact unquote_simple t (by decide) (by decide)
  · rw [h2]
    exact unquote_simple t (by decide) (by decide)
  · rw [h3]
    exact unquote_simple t (by decide) (by decide)
  · rw [h4]
    exact unquote_simple t (by decide) (by decide)
  · have hlt : b.toNat < 0x80 := UInt8.lt_iff_toNat_lt.1 hb
    rw [unquote_u4 t (by omega) (by omega), encodeRune, if_pos hlt, UInt8.ofNat_toNat]
  · simp only [Bool.or_eq_true, decide_eq_true_eq, not_or] at h1 h5
    exact unquote_plain t h1.1 h1.2 h5.1.1.1 hb

theorem escapeFrom_zero (copy : Bool) (s : List UInt8) : escapeFrom 0 copy s = escape s := by
  cases s with
  | nil => rfl
  | cons b bs => cases copy <;> rfl

theorem escapeFrom_copy (u t : List UInt8) : escapeFrom u.length true (u ++ t) = u ++ escape t := by
  induction u with
  | nil => rfl
  | cons b u ih =>
      show b :: escapeFrom u.length true (u ++ t) = _
      rw [ih]
      rfl

theorem escapeFrom_pass (u t : List UInt8) : escapeFrom u.length false (u ++ t) = escape t := by
  induction u with
  | nil => exact escapeFrom_zero false t
  | cons b u ih => exact ih

/-- An ASCII byte is a rune of its own. -/
theorem width_ascii {b : UInt8} (hb : b < 0x80) (t : List UInt8) : width (b :: t) = 1 := by
  have hsize : size b = 1 := if_pos hb
  simp only [width, hsize]

theorem escape_ascii {b : UInt8} (hb : b < 0x80) (t : List UInt8) :
    escape (b :: t) = escapeAscii b ++ escape t := by
  show (if b < 0x80 then _ else _) = _
  rw [if_pos hb]
  rfl

theorem escape_invalid {b : UInt8} {t : List UInt8} (hb : ¬ b < 0x80) (hw : width (b :: t) = 0) :
    escape (b :: t) = u4 0xFFFD ++ escape t := by
  simp only [escape, escapeFrom, if_neg hb, hw]

theorem escape_rune {b : UInt8} {u t : List UInt8} (hb : ¬ b < 0x80) (hu : IsRune (b :: u))
    (hline : lineSeparator (b :: (u ++ t)) = none) :
    escape (b :: u ++ t) = b :: u ++ escape t := by
  have hw : width (b :: (u ++ t)) = u.length + 1 := hu.2 t
  show escape (b :: (u ++ t)) = _
  simp only [escape, escapeFrom, if_neg hb, hw, hline]
  rw [escapeFrom_copy]
  rfl

theorem escape_lineSeparator {b : UInt8} {u t : List UInt8} {r : ℕ} (hb : ¬ b < 0x80)
    (hu : IsRune (b :: u)) (hline : lineSeparator (b :: (u ++ t)) = some r) :
    escape (b :: u ++ t) = u4 r ++ escape t := by
  have hw : width (b :: (u ++ t)) = u.length + 1 := hu.2 t
  show escape (b :: (u ++ t)) = _
  simp only [escape, escapeFrom, if_neg hb, hw, hline]
  rw [escapeFrom_pass]
  rfl

/-- The two line separators are runes of three bytes. -/
theorem rune_of_lineSeparator {u t : List UInt8} {r : ℕ} (hu : IsRune u)
    (hline : lineSeparator (u ++ t) = some r) : (r = 0x2028 ∨ r = 0x2029) ∧ encodeRune r = u := by
  have hlen : width (u ++ t) = u.length := hu.2 t
  unfold lineSeparator at hline
  split at hline
  case h_2 => cases hline
  case h_1 b0 b1 b2 rest hsplit =>
    -- the announced size fixes how much of the string is the rune
    have hthree : b0 = 0xE2 → b1 = 0x80 → (b2 = 0xA8 ∨ b2 = 0xA9) → u = [b0, b1, b2] := by
      intro h0 h1 h2
      have hw : width (b0 :: b1 :: b2 :: rest) = 3 := by
        rw [h0, h1]
        rcases h2 with rfl | rfl <;> rfl
      rw [hsplit, hw] at hlen
      have htake := congrArg (List.take 3) hsplit
      rw [List.take_append_of_le_length (by omega), List.take_of_length_le (by omega)] at htake
      exact htake
    split_ifs at hline with hA hB
    · simp only [Bool.and_eq_true, decide_eq_true_eq] at hA
      obtain ⟨⟨rfl, rfl⟩, rfl⟩ := hA
      cases hline
      exact ⟨Or.inl rfl, by rw [hthree rfl rfl (Or.inl rfl)]; decide⟩
    · simp only [Bool.and_eq_true, decide_eq_true_eq] at hB
      obtain ⟨⟨rfl, rfl⟩, rfl⟩ := hB
      cases hline
      exact ⟨Or.inr rfl, by rw [hthree rfl rfl (Or.inr rfl)]; decide⟩

/-- **A string out and back**: what is read is the string with its invalid bytes replaced
by U+FFFD. -/
theorem unquote_escape (s rest : List UInt8) :
    unquote (escape s ++ 0x22 :: rest) = some (coerce s, rest) := by
  induction s using rune_induction with
  | nil => exact unquote_quote rest
  | invalid b bs hw ih =>
      have hb : ¬ b < 0x80 := fun hb => by rw [width_ascii hb] at hw; cases hw
      rw [escape_invalid hb hw, coerce_invalid hw, List.append_assoc,
        unquote_u4 _ (by decide) (by decide), ih]
      rfl
  | rune u t hu ih =>
      cases u with
      | nil => exact absurd rfl hu.1
      | cons b u =>
          rw [coerce_rune hu]
          by_cases hb : b < 0x80
          · have hlen : u = [] := by
              have := hu.2 []
              rw [List.append_nil, width_ascii hb, List.length_cons] at this
              exact List.length_eq_zero_iff.1 (by omega)
            subst hlen
            show unquote (escape (b :: t) ++ _) = _
            rw [escape_ascii hb, List.append_assoc, unquote_escapeAscii _ hb, ih]
            rfl
          · cases hline : lineSeparator (b :: (u ++ t)) with
            | none =>
                rw [escape_rune hb hu hline, List.append_assoc, unquote_rune _ hb hu, ih]
                rfl
            | some r =>
                obtain ⟨hr, henc⟩ := rune_of_lineSeparator (t := t) hu hline
                rw [escape_lineSeparator hb hu hline, List.append_assoc,
                  unquote_u4 _ (by omega) (by omega), ih, henc]
                rfl

/-! ## Objects -/

/-- An entry of an object. -/
abbrev Member := List UInt8 × List UInt8

def writeString (s : List UInt8) : List UInt8 := 0x22 :: (escape s ++ [0x22])

def writeMember (e : Member) : List UInt8 := writeString e.1 ++ 0x3A :: writeString e.2

def writeMembers : List Member → List UInt8
  | [] => []
  | [e] => writeMember e
  | e :: es => writeMember e ++ 0x2C :: writeMembers es

/-- An object with the given entries. -/
def writeObject (es : List Member) : List UInt8 := 0x7B :: (writeMembers es ++ [0x7D])

def isSpace (b : UInt8) : Bool := b = 0x20 || b = 0x09 || b = 0x0A || b = 0x0D

def skipSpace (s : List UInt8) : List UInt8 := s.dropWhile isSpace

/-- One character that has to come next, white space aside, and the input after it. -/
def expect (c : UInt8) (s : List UInt8) : Option (List UInt8) :=
  match skipSpace s with
  | [] => none
  | b :: bs => if b = c then some bs else none

def readString (s : List UInt8) : Option (List UInt8 × List UInt8) := (expect 0x22 s).bind unquote

/-- The literal `null`, and the input after it. -/
def readNull (s : List UInt8) : Option (List UInt8) :=
  if [0x6E, 0x75, 0x6C, 0x6C] <+: skipSpace s then some ((skipSpace s).drop 4) else none

/-- A value for a string: `null` leaves it empty, and any other value is an error. -/
def readValue (s : List UInt8) : Option (List UInt8 × List UInt8) :=
  match readString s with
  | some r => some r
  | none => (readNull s).map fun s => ([], s)

def readMember (s : List UInt8) : Option (Member × List UInt8) :=
  (readString s).bind fun (k, s) =>
    (expect 0x3A s).bind fun s =>
      (readValue s).map fun (v, s) => ((k, v), s)

/-- Entries up to the closing brace; the first argument bounds their number. -/
def readMembers : ℕ → List UInt8 → Option (List Member × List UInt8)
  | 0, _ => none
  | n + 1, s =>
      (readMember s).bind fun (e, s) =>
        match expect 0x2C s with
        | some s => (readMembers n s).map fun (es, s) => (e :: es, s)
        | none => (expect 0x7D s).map fun s => ([e], s)

/-- The entries of an object; `null` counts as an object without any. -/
def readObject (s : List UInt8) : Option (List Member) :=
  let body :=
    match expect 0x7B s with
    | some s =>
        match expect 0x7D s with
        | some s => some ([], s)
        | none => readMembers s.length s
    | none => (readNull s).map fun s => ([], s)
  body.bind fun (es, s) => if skipSpace s = [] then some es else none

/-- An entry as it comes back. -/
def coerceMember (e : Member) : Member := (coerce e.1, coerce e.2)

theorem expect_self {c : UInt8} (hc : isSpace c = false) (t : List UInt8) :
    expect c (c :: t) = some t := by
  have hskip : skipSpace (c :: t) = c :: t := List.dropWhile_cons_of_neg (by rw [hc]; decide)
  unfold expect
  rw [hskip]
  exact if_pos rfl

theorem expect_ne {b c : UInt8} (hb : isSpace b = false) (h : b ≠ c) (t : List UInt8) :
    expect c (b :: t) = none := by
  have hskip : skipSpace (b :: t) = b :: t := List.dropWhile_cons_of_neg (by rw [hb]; decide)
  unfold expect
  rw [hskip]
  exact if_neg h

theorem readString_writeString (s t : List UInt8) :
    readString (writeString s ++ t) = some (coerce s, t) := by
  have hsplit : writeString s ++ t = 0x22 :: (escape s ++ 0x22 :: t) := by
    show 0x22 :: (escape s ++ [0x22] ++ t) = _
    rw [List.append_assoc]
    rfl
  rw [hsplit, readString, expect_self (by decide)]
  exact unquote_escape s t

theorem readMember_writeMember (e : Member) (t : List UInt8) :
    readMember (writeMember e ++ t) = some (coerceMember e, t) := by
  have hvalue : readValue (writeString e.2 ++ t) = some (coerce e.2, t) := by
    rw [readValue, readString_writeString]
  rw [readMember, writeMember, List.append_assoc, readString_writeString]
  simp only [Option.bind_some, List.cons_append, expect_self (show isSpace 0x3A = false by decide),
    hvalue]
  rfl

theorem readMembers_writeMembers {es : List Member} (hne : es ≠ []) {n : ℕ} (hn : es.length ≤ n)
    (t : List UInt8) :
    readMembers n (writeMembers es ++ 0x7D :: t) = some (es.map coerceMember, t) := by
  induction es generalizing n with
  | nil => exact absurd rfl hne
  | cons e es ih =>
      cases n with
      | zero => cases hn
      | succ n =>
          cases es with
          | nil =>
              show (readMember (writeMember e ++ 0x7D :: t)).bind _ = _
              rw [readMember_writeMember]
              simp only [Option.bind_some, expect_ne (show isSpace 0x7D = false by decide)
                (show (0x7D : UInt8) ≠ 0x2C by decide),
              expect_self (show isSpace 0x7D = false by decide)]
              rfl
          | cons e' es =>
              have hsplit : writeMembers (e :: e' :: es) ++ 0x7D :: t =
                  writeMember e ++ 0x2C :: (writeMembers (e' :: es) ++ 0x7D :: t) := by
                show (writeMember e ++ 0x2C :: writeMembers (e' :: es)) ++ _ = _
                rw [List.append_assoc]
                rfl
              have hrest := ih (List.cons_ne_nil _ _) (n := n) (Nat.le_of_succ_le_succ hn)
              rw [hsplit]
              show (readMember _).bind _ = _
              rw [readMember_writeMember]
              simp only [Option.bind_some, expect_self (show isSpace 0x2C = false by decide), hrest]
              rfl

theorem length_le_length_writeMembers (es : List Member) :
    es.length ≤ (writeMembers es).length := by
  induction es with
  | nil => exact Nat.le_refl 0
  | cons e es ih =>
      cases es with
      | nil =>
          show 1 ≤ (writeMember e).length
          simp [writeMember, writeString]
      | cons e' es =>
          show (e' :: es).length + 1 ≤ (writeMember e ++ 0x2C :: writeMembers (e' :: es)).length
          simp only [List.length_append, List.length_cons] at ih ⊢
          omega

/-- **The entries out and back.** -/
theorem readObject_writeObject (es : List Member) :
    readObject (writeObject es) = some (es.map coerceMember) := by
  have hopen : expect 0x7B (writeObject es) = some (writeMembers es ++ [0x7D]) :=
    expect_self (by decide) _
  unfold readObject
  rw [hopen]
  cases es with
  | nil => rfl
  | cons e es =>
      -- the first member starts with a quote, so the object is not empty
      have hmember : expect 0x7D (writeMembers (e :: es) ++ [0x7D]) = none := by
        cases es with
        | nil => exact expect_ne (b := 0x22) (by decide) (by decide) _
        | cons e' es => exact expect_ne (b := 0x22) (by decide) (by decide) _
      have hread := readMembers_writeMembers (List.cons_ne_nil e es)
        (n := (writeMembers (e :: es) ++ [0x7D]).length) (by
          have := length_le_length_writeMembers (e :: es)
          rw [List.length_append]
          omega) []
      simp only [hmember, hread]
      rfl

/-! ## Maps -/

/-- The order of Go strings. -/
def KeyLe (a b : List UInt8) : Prop := a.map UInt8.toNat ≤ b.map UInt8.toNat

instance : DecidableRel KeyLe := fun a b =>
  inferInstanceAs (Decidable (a.map UInt8.toNat ≤ b.map UInt8.toNat))

instance : IsTrans (List UInt8) KeyLe := ⟨fun _ _ _ h h' => le_trans (α := List ℕ) h h'⟩

instance : Std.Antisymm KeyLe :=
  ⟨fun _ _ h h' => List.map_injective_iff.2 (fun _ _ => UInt8.toNat_inj.1) (le_antisymm h h')⟩

instance : Std.Total KeyLe := ⟨fun a b => le_total (a.map UInt8.toNat) (b.map UInt8.toNat)⟩

/-- The entries of a map, with the keys in order. -/
def members (m : Map (List UInt8) (List UInt8)) : List Member :=
  (m.keys.sort KeyLe).map fun k => (k, (m.lookup k).getD [])

/-- Entries put into an empty map one after the other. -/
def ofMembers (es : List Member) : Map (List UInt8) (List UInt8) :=
  es.foldl (fun m e => m.insert e.1 e.2) ∅

/-- `json.Marshal`. -/
def marshal (m : Map (List UInt8) (List UInt8)) : List UInt8 := writeObject (members m)

/-- `json.Unmarshal` into a fresh map. -/
def unmarshal (s : List UInt8) : Option (Map (List UInt8) (List UInt8)) :=
  (readObject s).map ofMembers

/-- **The map that comes back**: the entries in key order, their invalid bytes replaced. -/
theorem unmarshal_marshal (m : Map (List UInt8) (List UInt8)) :
    unmarshal (marshal m) = some (ofMembers ((members m).map coerceMember)) := by
  unfold unmarshal marshal
  rw [readObject_writeObject]
  rfl

theorem mem_members {m : Map (List UInt8) (List UInt8)} {e : Member} :
    e ∈ members m ↔ m.lookup e.1 = some e.2 := by
  obtain ⟨k, v⟩ := e
  unfold members
  rw [List.mem_map]
  constructor
  · rintro ⟨k', hk', heq⟩
    obtain ⟨rfl, hv⟩ := Prod.mk.inj heq
    rw [Finset.mem_sort, Finmap.mem_keys, Finmap.mem_iff] at hk'
    obtain ⟨w, hw⟩ := hk'
    rw [hw] at hv
    rw [hw, ← hv]
    rfl
  · intro hv
    refine ⟨k, ?_, by rw [hv]; rfl⟩
    rw [Finset.mem_sort, Finmap.mem_keys]
    exact Finmap.mem_of_lookup_eq_some hv

/-- Entries of a map, put into an empty one, give the map again. -/
theorem lookup_foldl_members {f : List UInt8 → List UInt8} {ks : List (List UInt8)}
    (hnd : ks.Nodup) {m : Map (List UInt8) (List UInt8)} (k : List UInt8) :
    ((ks.map fun k => (k, f k)).foldl (fun m e => m.insert e.1 e.2) m).lookup k =
      if k ∈ ks then some (f k) else m.lookup k := by
  induction ks generalizing m with
  | nil => rfl
  | cons k' ks ih =>
      rw [List.nodup_cons] at hnd
      show ((ks.map fun k => (k, f k)).foldl _ (m.insert k' (f k'))).lookup k = _
      rw [ih hnd.2]
      by_cases hmem : k ∈ ks
      · rw [if_pos hmem, if_pos (List.mem_cons_of_mem _ hmem)]
      · rw [if_neg hmem]
        by_cases hk : k = k'
        · subst hk
          rw [Finmap.lookup_insert, if_pos (List.mem_cons_self ..)]
        · rw [Finmap.lookup_insert_of_ne _ hk, if_neg (by
            rw [List.mem_cons, not_or]
            exact ⟨hk, hmem⟩)]

theorem ofMembers_members (m : Map (List UInt8) (List UInt8)) : ofMembers (members m) = m := by
  refine Finmap.ext_lookup fun k => ?_
  unfold ofMembers members
  rw [lookup_foldl_members (Finset.sort_nodup ..)]
  split_ifs with hk
  · rw [Finset.mem_sort, Finmap.mem_keys, Finmap.mem_iff] at hk
    obtain ⟨v, hv⟩ := hk
    rw [hv]
    rfl
  · rw [Finset.mem_sort, Finmap.mem_keys, ← Finmap.lookup_eq_none] at hk
    rw [Finmap.lookup_empty, hk]

/-- **A map survives JSON exactly if all of it is valid UTF-8.** -/
theorem unmarshal_marshal_iff (m : Map (List UInt8) (List UInt8)) :
    unmarshal (marshal m) = some m ↔
      ∀ k v, m.lookup k = some v → valid k = true ∧ valid v = true := by
  rw [unmarshal_marshal, Option.some.injEq]
  constructor
  · -- every key and value of the map that comes back is valid
    intro h k v hv
    rw [← h] at hv
    rcases mem_of_lookup_foldl hv with hmem | hempty
    · obtain ⟨e, -, heq⟩ := List.mem_map.1 hmem
      obtain ⟨rfl, rfl⟩ := Prod.mk.inj heq
      exact ⟨valid_coerce e.1, valid_coerce e.2⟩
    · rw [Finmap.lookup_empty] at hempty
      cases hempty
  · intro h
    have hsame : (members m).map coerceMember = members m := by
      refine List.map_congr_left (fun e he => ?_) |>.trans (List.map_id _)
      obtain ⟨hk, hv⟩ := h e.1 e.2 (mem_members.1 he)
      show (coerce e.1, coerce e.2) = e
      rw [(coerce_eq_self_iff e.1).2 hk, (coerce_eq_self_iff e.2).2 hv]
    rw [hsame, ofMembers_members]

end GoJson
