import Mathlib.Data.Nat.Digits.Lemmas
import GoExperiments.Lib.Json
import GoExperiments.Goraft.System

/-!
# Bytes of the log and bytes of a snapshot

A put reaches the map on two ways.  Through the log it travels as a `gob` of the type
`kv`, which carries byte strings; through a snapshot it travels as JSON, which carries
text.

* `gobEncode`, `gobDecode` — the `gob` of a `kv` and its reader; `gobDecode_gobEncode`:
  every key and value comes back as it was.
* `getSnapshot`, `recoverFromSnapshot` — the bytes of a snapshot and back.
* `snapshot_lossless_iff` — the map that comes back is the same exactly if all of it is
  valid UTF-8.
* `goCodec` — both encodings, as the node uses them.
-/

namespace Goraft

open GoUtf8 Go

/-! ## The log: `gob` -/

/-- The big-endian bytes of a number. -/
def uintBytes (n : ℕ) : Bytes := (Nat.digits 256 n).reverse.map UInt8.ofNat

/-- The number of big-endian bytes. -/
def uintOf (bs : Bytes) : ℕ := bs.foldl (fun n b => n * 256 + b.toNat) 0

/-- An unsigned integer in a `gob`: one byte if it is below 128, else the negated number of
bytes and the bytes. -/
def encodeUint (n : ℕ) : Bytes :=
  if n < 128 then [UInt8.ofNat n] else UInt8.ofNat (256 - (uintBytes n).length) :: uintBytes n

def decodeUint : Bytes → Option (ℕ × Bytes)
  | [] => none
  | b :: bs =>
      if b < 0x80 then some (b.toNat, bs)
      else if 8 < 256 - b.toNat ∨ bs.length < 256 - b.toNat then none
      else some (uintOf (bs.take (256 - b.toNat)), bs.drop (256 - b.toNat))

def encodeString (s : Bytes) : Bytes := encodeUint s.length ++ s

def decodeString (bs : Bytes) : Option (Bytes × Bytes) :=
  (decodeUint bs).bind fun (n, bs) => if bs.length < n then none else some (bs.take n, bs.drop n)

/-- The fields of a struct after field `last`: each with the distance from the one before,
empty strings left out, and a zero at the end. -/
def encodeFields : ℕ → List (ℕ × Bytes) → Bytes
  | _, [] => [0]
  | last, (i, s) :: fs =>
      if s = [] then encodeFields last fs
      else encodeUint (i - last) ++ encodeString s ++ encodeFields i fs

/-- The fields of a `kv`; the first argument bounds their number. -/
def decodeFields : ℕ → ℕ → KV → Bytes → Option KV
  | 0, _, _, _ => none
  | n + 1, last, kv, bs =>
      (decodeUint bs).bind fun (delta, bs) =>
        if delta = 0 then some kv
        else
          (decodeString bs).bind fun (s, bs) =>
            if last + delta = 1 then decodeFields n 1 { kv with key := s } bs
            else if last + delta = 2 then decodeFields n 2 { kv with val := s } bs
            else none

/-- The message that defines the type `kv`, with the fields `Key` and `Val`, as type 65. -/
def gobHeader : Bytes :=
  [0x20, 0xFF, 0x81, 0x03, 0x01, 0x01, 0x02, 0x6B, 0x76, 0x01, 0xFF, 0x82, 0x00, 0x01, 0x02,
    0x01, 0x03, 0x4B, 0x65, 0x79, 0x01, 0x0C, 0x00, 0x01, 0x03, 0x56, 0x61, 0x6C, 0x01, 0x0C, 0x00,
    0x00, 0x00]

/-- The type 65 in front of a value. -/
def gobType : Bytes := [0xFF, 0x82]

/-- `gob.NewEncoder(&buf).Encode(kv{k, v})`, as `Propose` calls it. -/
def gobEncode (kv : KV) : Bytes :=
  let value := gobType ++ encodeFields 0 [(1, kv.key), (2, kv.val)]
  gobHeader ++ encodeUint value.length ++ value

/-- `dec.Decode(&dataKv)`, as `readCommits` calls it, on what such an encoder wrote. -/
def gobDecode (data : Bytes) : Option KV :=
  if gobHeader <+: data then
    (decodeUint (data.drop gobHeader.length)).bind fun (n, bs) =>
      if bs.length < n then none
      else if gobType <+: bs then decodeFields 3 0 ⟨[], []⟩ (bs.drop gobType.length)
      else none
  else none

theorem uintOf_uintBytes (n : ℕ) : uintOf (uintBytes n) = n := by
  have hfold : ∀ ds : List ℕ, (∀ d ∈ ds, d < 256) →
      uintOf (ds.reverse.map UInt8.ofNat) = Nat.ofDigits 256 ds := by
    intro ds hds
    induction ds with
    | nil => rfl
    | cons d ds ih =>
        have hd : (UInt8.ofNat d).toNat = d :=
          UInt8.toNat_ofNat_of_lt' (hds d (List.mem_cons_self ..))
        have hrest := ih fun x hx => hds x (List.mem_cons_of_mem d hx)
        unfold uintOf at hrest ⊢
        rw [List.reverse_cons, List.map_append, List.foldl_append, hrest, Nat.ofDigits_cons]
        show Nat.ofDigits 256 ds * 256 + (UInt8.ofNat d).toNat = _
        rw [hd]
        ring
  unfold uintBytes
  rw [hfold _ fun d hd => Nat.digits_lt_base (by decide) hd, Nat.ofDigits_digits]

theorem length_uintBytes {n : ℕ} (hn : n < 2 ^ 64) : (uintBytes n).length ≤ 8 := by
  unfold uintBytes
  rw [List.length_map, List.length_reverse, Nat.digits_length_le_iff (by decide)]
  exact hn

theorem decodeUint_encodeUint {n : ℕ} (hn : n < 2 ^ 64) (t : Bytes) :
    decodeUint (encodeUint n ++ t) = some (n, t) := by
  unfold encodeUint
  by_cases hsmall : n < 128
  · have hb : (UInt8.ofNat n).toNat = n := UInt8.toNat_ofNat_of_lt' (by show n < 256; omega)
    have hlt : UInt8.ofNat n < 0x80 := by
      rw [UInt8.lt_iff_toNat_lt, hb]
      exact hsmall
    rw [if_pos hsmall]
    show (if UInt8.ofNat n < 0x80 then _ else _) = _
    rw [if_pos hlt, hb]
    rfl
  · have hlen := length_uintBytes hn
    have hpos : 0 < (uintBytes n).length := by
      refine List.length_pos_iff.2 fun hnil => ?_
      have := uintOf_uintBytes n
      rw [hnil] at this
      change 0 = n at this
      omega
    have hb : (UInt8.ofNat (256 - (uintBytes n).length)).toNat = 256 - (uintBytes n).length :=
      UInt8.toNat_ofNat_of_lt' (by show _ < 256; omega)
    have hlt : ¬ UInt8.ofNat (256 - (uintBytes n).length) < 0x80 := by
      rw [UInt8.lt_iff_toNat_lt, hb]
      show ¬ _ < 128
      omega
    have hk : 256 - (UInt8.ofNat (256 - (uintBytes n).length)).toNat = (uintBytes n).length := by
      omega
    rw [if_neg hsmall]
    show (if UInt8.ofNat (256 - (uintBytes n).length) < 0x80 then _ else
      if 8 < 256 - (UInt8.ofNat (256 - (uintBytes n).length)).toNat ∨
        (uintBytes n ++ t).length < 256 - (UInt8.ofNat (256 - (uintBytes n).length)).toNat then none
      else some (uintOf ((uintBytes n ++ t).take _), (uintBytes n ++ t).drop _)) = _
    rw [if_neg hlt, hk, if_neg (by rw [List.length_append]; omega), List.take_left, List.drop_left,
      uintOf_uintBytes]

theorem decodeString_encodeString {s : Bytes} (hs : s.length < 2 ^ 64) (t : Bytes) :
    decodeString (encodeString s ++ t) = some (s, t) := by
  unfold decodeString encodeString
  rw [List.append_assoc, decodeUint_encodeUint hs]
  show (if (s ++ t).length < s.length then none else some ((s ++ t).take _, (s ++ t).drop _)) = _
  rw [if_neg (by rw [List.length_append]; omega), List.take_left, List.drop_left]

/-- One field of a `kv` is read back. -/
theorem decodeFields_field {n last i : ℕ} {kv : KV} {s : Bytes} (hs : s.length < 2 ^ 64)
    (hi : last < i ∧ i ≤ 2) (t : Bytes) :
    decodeFields (n + 1) last kv (encodeUint (i - last) ++ encodeString s ++ t) =
      if i = 1 then decodeFields n 1 { kv with key := s } t
      else decodeFields n 2 { kv with val := s } t := by
  have hdelta : i - last ≠ 0 := by omega
  have hsum : last + (i - last) = i := by omega
  rw [decodeFields, List.append_assoc, decodeUint_encodeUint (by omega)]
  simp only [Option.bind_some, if_neg hdelta, decodeString_encodeString hs, hsum]
  by_cases h1 : i = 1
  · rw [if_pos h1, if_pos h1]
  · rw [if_neg h1, if_neg h1, if_pos (by omega)]

theorem decodeFields_end {n last : ℕ} (kv : KV) : decodeFields (n + 1) last kv [0] = some kv := by
  rw [decodeFields]
  rfl

/-- The fields of a `kv` come back, also when one of them is empty and left out. -/
theorem decodeFields_encodeFields {kv : KV} (hk : kv.key.length < 2 ^ 64)
    (hv : kv.val.length < 2 ^ 64) :
    decodeFields 3 0 ⟨[], []⟩ (encodeFields 0 [(1, kv.key), (2, kv.val)]) = some kv := by
  obtain ⟨k, v⟩ := kv
  by_cases hkey : k = []
  · by_cases hval : v = []
    · subst hkey hval
      exact decodeFields_end _
    · subst hkey
      have henc : encodeFields 0 [(1, []), (2, v)] =
          encodeUint (2 - 0) ++ encodeString v ++ [0] := by
        rw [encodeFields, if_pos rfl, encodeFields, if_neg hval, encodeFields]
      rw [henc, decodeFields_field hv (by omega), if_neg (by decide), decodeFields_end]
  · by_cases hval : v = []
    · subst hval
      have henc : encodeFields 0 [(1, k), (2, [])] = encodeUint (1 - 0) ++ encodeString k ++ [0] := by
        rw [encodeFields, if_neg hkey, encodeFields, if_pos rfl, encodeFields]
      rw [henc, decodeFields_field hk (by omega), if_pos rfl, decodeFields_end]
    · have henc : encodeFields 0 [(1, k), (2, v)] =
          encodeUint (1 - 0) ++ encodeString k ++ (encodeUint (2 - 1) ++ encodeString v ++ [0]) := by
        rw [encodeFields, if_neg hkey, encodeFields, if_neg hval, encodeFields]
      rw [henc, decodeFields_field hk (by omega), if_pos rfl, decodeFields_field hv (by omega),
        if_neg (by decide), decodeFields_end]

theorem length_le_length_encodeFields (last : ℕ) (fs : List (ℕ × Bytes)) :
    ∀ f ∈ fs, f.2.length ≤ (encodeFields last fs).length := by
  induction fs generalizing last with
  | nil => exact fun f hf => absurd hf List.not_mem_nil
  | cons g fs ih =>
      intro f hf
      rw [encodeFields]
      by_cases hg : g.2 = []
      · rw [if_pos hg]
        rcases List.mem_cons.1 hf with rfl | hf
        · rw [hg]
          exact Nat.zero_le _
        · exact ih last f hf
      · rw [if_neg hg, List.length_append, List.length_append]
        rcases List.mem_cons.1 hf with rfl | hf
        · rw [encodeString, List.length_append]
          omega
        · have := ih g.1 f hf
          omega

/-- **The log carries bytes**: every key and value comes back as it was proposed. -/
theorem gobDecode_gobEncode {kv : KV} (hkv : (gobEncode kv).length < 2 ^ 64) :
    gobDecode (gobEncode kv) = some kv := by
  have hfields := length_le_length_encodeFields 0 [(1, kv.key), (2, kv.val)]
  have hkey : kv.key.length ≤ _ := hfields (1, kv.key) (by simp)
  have hval : kv.val.length ≤ _ := hfields (2, kv.val) (by simp)
  have hread := @decodeFields_encodeFields kv
  unfold gobEncode at hkv ⊢
  generalize encodeFields 0 [(1, kv.key), (2, kv.val)] = fields at hkv hkey hval hread ⊢
  simp only [List.length_append] at hkv
  unfold gobDecode
  rw [List.append_assoc, if_pos (List.prefix_append ..), List.drop_left,
    decodeUint_encodeUint (by rw [List.length_append]; omega)]
  show (if (gobType ++ fields).length < (gobType ++ fields).length then none
    else if gobType <+: gobType ++ fields then _ else _) = _
  rw [if_neg (Nat.lt_irrefl _), if_pos (List.prefix_append ..), List.drop_left]
  exact hread (by omega) (by omega)

/-! ## Snapshots: JSON -/

/-- `getSnapshot`. -/
def getSnapshot (kvStore : Store) : Bytes := GoJson.marshal kvStore

/-- `recoverFromSnapshot`: the map it puts in the place of the old one, unless the bytes
cannot be read. -/
def recoverFromSnapshot (snapshot : Bytes) : Option Store := GoJson.unmarshal snapshot

/-- Both encodings, as the node uses them. -/
def goCodec : Codec := ⟨gobDecode, getSnapshot, recoverFromSnapshot⟩

/-- A PUT request: the path it names and its body. -/
structure PutRequest where
  requestURI : Bytes
  body : Bytes
  deriving DecidableEq, Repr

/-- The map after the put of a request has gone through the log. -/
def servePut (kvStore : Store) (r : PutRequest) : Store :=
  match gobDecode (gobEncode ⟨r.requestURI, r.body⟩) with
  | none => kvStore
  | some kv => kvStore.insert kv.key kv.val

/-- The map that PUT requests build. -/
def buildStore (requests : List PutRequest) : Store := requests.foldl servePut ∅

/-- **A snapshot keeps a map exactly if all of it is valid UTF-8.**  For every map that PUT
requests build, what `recoverFromSnapshot` makes of the bytes of `getSnapshot` is the same
map if and only if every key and every value in it is valid UTF-8. -/
theorem snapshot_lossless_iff (requests : List PutRequest) :
    recoverFromSnapshot (getSnapshot (buildStore requests)) = some (buildStore requests) ↔
      ∀ key val, (buildStore requests).lookup key = some val →
        valid key = true ∧ valid val = true :=
  GoJson.unmarshal_marshal_iff (buildStore requests)

/-- A PUT of the single byte `ff` to `/k`: the map that comes back from the snapshot is
another one. -/
theorem snapshot_loses_byte :
    recoverFromSnapshot (getSnapshot (buildStore [⟨[0x2F, 0x6B], [0xFF]⟩])) ≠
      some (buildStore [⟨[0x2F, 0x6B], [0xFF]⟩]) := by
  intro h
  have hput : (buildStore [⟨[0x2F, 0x6B], [0xFF]⟩]).lookup [0x2F, 0x6B] = some [0xFF] := by decide
  have hvalid := ((GoJson.unmarshal_marshal_iff _).1 h _ _ hput).2
  exact absurd hvalid (by decide)

end Goraft
