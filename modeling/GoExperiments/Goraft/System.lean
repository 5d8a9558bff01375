import GoExperiments.Lib.GoMap
import GoExperiments.Goraft.Storage

/-!
# The node as a whole

Three goroutines work together: the event loop of the raft node, the goroutine that
runs `readCommits` on the store, and `main`, which waits in `newKVStore` until the
first `readCommits` has returned and only then assigns `kvs`.  The event loop and
`readCommits` meet on the unbuffered channel `commitC`: a send completes when the
message is received, before anything has been done with it.

* `Sys` — the state of the three, with the disk and the inputs raft still delivers.
* `sysStep` — one step of one of them, or a message handed over; an action list is an
  interleaving.
* `Stepped` — everything a step can do, read off `sysStep` once (`stepped_of_step`).
* `storeAt` — what the store should hold after a prefix of the log, and `DeliversOf`,
  what raft guarantees about the inputs.
* `loopTracks_step`, `replayInv_step` — the event loop stays on the committed log, and
  the `nil` that ends the replay is sent once.
-/

namespace Goraft

open Runs Go

/-! ## The parties -/

/-- The Go type `kv`. -/
structure KV where
  key : Bytes
  val : Bytes
  deriving DecidableEq, Repr

/-- The type of `kvStore`. -/
abbrev Store := GoMap.Map Bytes Bytes

/-- How the store reads and writes bytes: `gob` for the entries of the log, JSON for
snapshots; `none` is an error. -/
structure Codec where
  decode : Bytes → Option KV
  marshal : Store → Bytes
  unmarshal : Bytes → Option Store

/-- What the event loop gets to see in its `select`: a `Ready`, or the end (the stop
signal, or an error of the transport). -/
inductive Input where
  | ready (rd : Ready)
  | close (failed : Bool)
  deriving DecidableEq, Repr

/-- What ends the process. -/
inductive Crash where
  | gapInCommitted
  | snapshotBehind
  | badEntry
  | badSnapshot
  | nilStore
  | transport
  deriving DecidableEq, Repr

/-- Where the event loop is; `replayNil`, `snapshotNil` and `endNil` are its sends of
`nil` in `replayWAL`, `publishSnapshot` and `publishEntries`. -/
inductive LoopAt where
  | replayNil
  | select
  | snapshotNil (index : UInt64) (committed : List Entry)
  | publish (ents : List Entry)
  | endNil (ents : List Entry)
  | trigger
  | save (data : Bytes)
  | stopped (failed : Bool)
  deriving DecidableEq, Repr

/-- Where `readCommits` is. -/
inductive KvAt where
  | receive
  | decode (data : Bytes)
  | apply (kv : KV)
  | load
  | recover (store : Store)
  | ended
  deriving DecidableEq

/-- Where `main` is: in the first `readCommits`, after it with the second one started,
or past the assignment of `kvs`. -/
inductive MainAt where
  | replaying
  | returning
  | serving
  deriving DecidableEq, Repr

/-- The node: `disk` is the newest saved snapshot, and `created` remembers the
snapshots this node has created. -/
structure Sys where
  node : Node
  pc : LoopAt
  inbox : List Input
  disk : Option Snapshot
  created : List Snapshot
  kv : KvAt
  store : Store
  main : MainAt
  crash : Option Crash

/-- A step of the event loop, of `readCommits` or of `main`, or a message handed over on
`commitC`. -/
inductive Act where
  | loop
  | send
  | kv
  | main
  deriving DecidableEq, Repr

/-! ## The steps -/

/-- The event loop goes on to publish a batch. -/
def Sys.toPublish (s : Sys) (committed : List Entry) : Sys :=
  match entriesToApply s.node committed with
  | .error _ => { s with crash := some .gapInCommitted }
  | .ok ents => { s with pc := .publish ents }

/-- The rest of a round of `publishEntries`, once the entry has gone out. -/
def Sys.published (s : Sys) (e : Entry) (es : List Entry) : Sys :=
  { s with
    node := { s.node with appliedIndex := e.index }
    pc := if e.index = s.node.lastIndex then .endNil es else .publish es }

/-- A step of the event loop on its own. -/
def stepLoop (c : Codec) (s : Sys) : Option Sys :=
  match s.pc with
  | .select =>
      match s.inbox with
      | [] => none
      | .close failed :: rest => some { s with inbox := rest, pc := .stopped failed }
      | .ready rd :: rest =>
          match rd.snapshot with
          | none => some (Sys.toPublish { s with inbox := rest } rd.committed)
          | some snap =>
              -- saveSnap, then publishSnapshot up to its send
              if snap.index ≤ s.node.appliedIndex then
                some { s with inbox := rest, disk := some snap, crash := some .snapshotBehind }
              else
                some { s with
                  inbox := rest
                  disk := some snap
                  pc := .snapshotNil snap.index rd.committed }
  | .publish [] => some { s with pc := .trigger }
  | .publish (e :: es) =>
      match e.payload.outputs s.node.id, e.payload.value with
      | none, _ => some { s with pc := .stopped false }
      | some _, none => some (s.published e es)
      | some _, some _ => none
  | .trigger =>
      if s.node.due then
        match s.main with
        | .serving => some { s with pc := .save (c.marshal s.store) }
        | _ => some { s with crash := some .nilStore }
      else some { s with pc := .select }
  | .save data =>
      some { s with
        created := ⟨s.node.appliedIndex, data⟩ :: s.created
        disk := some ⟨s.node.appliedIndex, data⟩
        node := { s.node with snapshotIndex := s.node.appliedIndex }
        pc := .select }
  | .replayNil | .snapshotNil _ _ | .endNil _ | .stopped _ => none

/-- A message goes from the event loop to `readCommits`. -/
def stepSend (s : Sys) : Option Sys :=
  match s.kv, s.pc with
  | .receive, .replayNil => some { s with pc := .select, kv := .load }
  | .receive, .snapshotNil index committed =>
      some (Sys.toPublish { s with
        node := { s.node with snapshotIndex := index, appliedIndex := index }
        kv := .load } committed)
  | .receive, .publish (e :: es) =>
      match e.payload.value with
      | none => none
      | some data => some (Sys.published { s with kv := .decode data } e es)
  | .receive, .endNil es => some { s with pc := .publish es, kv := .load }
  | _, _ => none

/-- A step of `readCommits` on its own; when the first one returns, `newKVStore` starts
the second one. -/
def stepKv (c : Codec) (s : Sys) : Option Sys :=
  match s.kv with
  | .receive =>
      match s.pc with
      -- commitC is closed; errorC holds an error or is closed as well
      | .stopped true => some { s with crash := some .transport }
      | .stopped false =>
          some { s with
            kv := .ended
            main := if s.main = .replaying then .returning else s.main }
      | _ => none
  | .decode data =>
      match c.decode data with
      | none => some { s with crash := some .badEntry }
      | some kv => some { s with kv := .apply kv }
  | .apply kv => some { s with store := s.store.insert kv.key kv.val, kv := .receive }
  | .load =>
      match s.disk with
      | none =>
          if s.main = .replaying then some { s with kv := .receive, main := .returning }
          else some { s with kv := .ended }
      | some snap =>
          match c.unmarshal snap.data with
          | none => some { s with crash := some .badSnapshot }
          | some store => some { s with kv := .recover store }
  | .recover store => some { s with store := store, kv := .receive }
  | .ended => none

/-- A step of `main`: `kvs` is assigned; later it dies of an error it finds in `errorC`. -/
def stepMain (s : Sys) : Option Sys :=
  match s.main, s.pc with
  | .returning, _ => some { s with main := .serving }
  | .serving, .stopped true => some { s with crash := some .transport }
  | _, _ => none

/-- One step of the node. -/
def sysStep (c : Codec) (s : Sys) (a : Act) : Option Sys :=
  if s.crash.isSome then none
  else match a with
    | .loop => stepLoop c s
    | .send => stepSend s
    | .kv => stepKv c s
    | .main => stepMain s

/-- What a node finds on disk at start. -/
structure Disk where
  snapshot : Option Snapshot
  wal : List Entry
  deriving DecidableEq, Repr

/-- The node right after `replayWAL` has filled the storage: with an empty log the first
message on `commitC` is `nil`. -/
def start (id snapCount : UInt64) (d : Disk) (inbox : List Input) : Sys where
  node := ⟨id, lastIndexD d.wal 0, snapIndexD d.snapshot 0, snapIndexD d.snapshot 0, snapCount⟩
  pc := if d.wal = [] then .replayNil else .select
  inbox := inbox
  disk := d.snapshot
  created := []
  kv := .receive
  store := ∅
  main := .replaying
  crash := none

/-- On a legal disk state, `start` is what `replayWAL` and `serveChannels` make of it. -/
theorem start_node {id snapCount : UInt64} {d : Disk} (inbox : List Input)
    (h : DurableLegal d.snapshot d.wal) :
    (start id snapCount d inbox).node = (startLoop id snapCount d.snapshot d.wal).node := by
  rw [startLoop_eq h]
  rfl

/-! ## Everything a step can do -/

/-- The cases of `sysStep`, with what holds in each of them. -/
inductive Stepped (c : Codec) (s : Sys) : Act → Sys → Prop
  | close (failed : Bool) (rest : List Input) (hpc : s.pc = .select)
      (hin : s.inbox = .close failed :: rest) :
      Stepped c s .loop { s with inbox := rest, pc := .stopped failed }
  | take (rd : Ready) (rest : List Input) (hpc : s.pc = .select)
      (hin : s.inbox = .ready rd :: rest) (hsnap : rd.snapshot = none) :
      Stepped c s .loop (Sys.toPublish { s with inbox := rest } rd.committed)
  | behind (rd : Ready) (snap : Snapshot) (rest : List Input) (hpc : s.pc = .select)
      (hin : s.inbox = .ready rd :: rest) (hsnap : rd.snapshot = some snap)
      (hle : snap.index ≤ s.node.appliedIndex) :
      Stepped c s .loop
        { s with inbox := rest, disk := some snap, crash := some .snapshotBehind }
  | snapshot (rd : Ready) (snap : Snapshot) (rest : List Input) (hpc : s.pc = .select)
      (hin : s.inbox = .ready rd :: rest) (hsnap : rd.snapshot = some snap)
      (hlt : ¬ snap.index ≤ s.node.appliedIndex) :
      Stepped c s .loop
        { s with inbox := rest, disk := some snap, pc := .snapshotNil snap.index rd.committed }
  | publishedAll (hpc : s.pc = .publish []) : Stepped c s .loop { s with pc := .trigger }
  | removed (e : Entry) (es : List Entry) (hpc : s.pc = .publish (e :: es))
      (hout : e.payload.outputs s.node.id = none) :
      Stepped c s .loop { s with pc := .stopped false }
  | silent (e : Entry) (es : List Entry) (hpc : s.pc = .publish (e :: es))
      (hout : e.payload.outputs s.node.id ≠ none) (hval : e.payload.value = none) :
      Stepped c s .loop (s.published e es)
  | notDue (hpc : s.pc = .trigger) (hdue : s.node.due = false) :
      Stepped c s .loop { s with pc := .select }
  | getSnapshot (hpc : s.pc = .trigger) (hdue : s.node.due = true) (hmain : s.main = .serving) :
      Stepped c s .loop { s with pc := .save (c.marshal s.store) }
  | nilStore (hpc : s.pc = .trigger) (hdue : s.node.due = true) (hmain : s.main ≠ .serving) :
      Stepped c s .loop { s with crash := some .nilStore }
  | save (data : Bytes) (hpc : s.pc = .save data) :
      Stepped c s .loop
        { s with
          created := ⟨s.node.appliedIndex, data⟩ :: s.created
          disk := some ⟨s.node.appliedIndex, data⟩
          node := { s.node with snapshotIndex := s.node.appliedIndex }
          pc := .select }
  | sendReplayNil (hkv : s.kv = .receive) (hpc : s.pc = .replayNil) :
      Stepped c s .send { s with pc := .select, kv := .load }
  | sendSnapshotNil (index : UInt64) (committed : List Entry) (hkv : s.kv = .receive)
      (hpc : s.pc = .snapshotNil index committed) :
      Stepped c s .send (Sys.toPublish { s with
        node := { s.node with snapshotIndex := index, appliedIndex := index }
        kv := .load } committed)
  | sendData (e : Entry) (es : List Entry) (data : Bytes) (hkv : s.kv = .receive)
      (hpc : s.pc = .publish (e :: es)) (hval : e.payload.value = some data) :
      Stepped c s .send (Sys.published { s with kv := .decode data } e es)
  | sendEndNil (es : List Entry) (hkv : s.kv = .receive) (hpc : s.pc = .endNil es) :
      Stepped c s .send { s with pc := .publish es, kv := .load }
  | closedError (hkv : s.kv = .receive) (hpc : s.pc = .stopped true) :
      Stepped c s .kv { s with crash := some .transport }
  | closed (hkv : s.kv = .receive) (hpc : s.pc = .stopped false) :
      Stepped c s .kv
        { s with kv := .ended, main := if s.main = .replaying then .returning else s.main }
  | badEntry (data : Bytes) (hkv : s.kv = .decode data) (hdec : c.decode data = none) :
      Stepped c s .kv { s with crash := some .badEntry }
  | decode (data : Bytes) (kv : KV) (hkv : s.kv = .decode data) (hdec : c.decode data = some kv) :
      Stepped c s .kv { s with kv := .apply kv }
  | apply (kv : KV) (hkv : s.kv = .apply kv) :
      Stepped c s .kv { s with store := s.store.insert kv.key kv.val, kv := .receive }
  | replayDone (hkv : s.kv = .load) (hdisk : s.disk = none) (hmain : s.main = .replaying) :
      Stepped c s .kv { s with kv := .receive, main := .returning }
  | readerDone (hkv : s.kv = .load) (hdisk : s.disk = none) (hmain : s.main ≠ .replaying) :
      Stepped c s .kv { s with kv := .ended }
  | badSnapshot (snap : Snapshot) (hkv : s.kv = .load) (hdisk : s.disk = some snap)
      (hun : c.unmarshal snap.data = none) :
      Stepped c s .kv { s with crash := some .badSnapshot }
  | load (snap : Snapshot) (store : Store) (hkv : s.kv = .load) (hdisk : s.disk = some snap)
      (hun : c.unmarshal snap.data = some store) :
      Stepped c s .kv { s with kv := .recover store }
  | recover (store : Store) (hkv : s.kv = .recover store) :
      Stepped c s .kv { s with store := store, kv := .receive }
  | assign (hmain : s.main = .returning) : Stepped c s .main { s with main := .serving }
  | serveError (hmain : s.main = .serving) (hpc : s.pc = .stopped true) :
      Stepped c s .main { s with crash := some .transport }

variable {c : Codec} {s s' : Sys} {a : Act}

theorem stepped_of_stepLoop (h : stepLoop c s = some s') : Stepped c s .loop s' := by
  unfold stepLoop at h
  split at h
  case h_1 hpc =>
    split at h
    case h_1 => cases h
    case h_2 failed rest hin => cases h; exact .close failed rest hpc hin
    case h_3 rd rest hin =>
      split at h
      case h_1 hsnap => cases h; exact .take rd rest hpc hin hsnap
      case h_2 snap hsnap =>
        split_ifs at h with hle
        · cases h; exact .behind rd snap rest hpc hin hsnap hle
        · cases h; exact .snapshot rd snap rest hpc hin hsnap hle
  case h_2 hpc => cases h; exact .publishedAll hpc
  case h_3 e es hpc =>
    split at h
    case h_1 hout => cases h; exact .removed e es hpc hout
    case h_2 out hout hval =>
      cases h
      exact .silent e es hpc (by rw [hout]; exact Option.some_ne_none _) hval
    case h_3 => cases h
  case h_4 hpc =>
    split_ifs at h with hdue
    · split at h
      case h_1 hmain => cases h; exact .getSnapshot hpc hdue hmain
      case h_2 hmain => cases h; exact .nilStore hpc hdue hmain
    · cases h; exact .notDue hpc (Bool.not_eq_true _ ▸ hdue)
  case h_5 data hpc => cases h; exact .save data hpc
  all_goals cases h

theorem stepped_of_stepSend (h : stepSend s = some s') : Stepped c s .send s' := by
  unfold stepSend at h
  split at h
  case h_1 hkv hpc => cases h; exact .sendReplayNil hkv hpc
  case h_2 index committed hkv hpc => cases h; exact .sendSnapshotNil index committed hkv hpc
  case h_3 e es hkv hpc =>
    split at h
    case h_1 => cases h
    case h_2 data hval => cases h; exact .sendData e es data hkv hpc hval
  case h_4 es hkv hpc => cases h; exact .sendEndNil es hkv hpc
  case h_5 => cases h

theorem stepped_of_stepKv (h : stepKv c s = some s') : Stepped c s .kv s' := by
  unfold stepKv at h
  split at h
  case h_1 hkv =>
    split at h
    case h_1 hpc => cases h; exact .closedError hkv hpc
    case h_2 hpc => cases h; exact .closed hkv hpc
    case h_3 => cases h
  case h_2 data hkv =>
    split at h
    case h_1 hdec => cases h; exact .badEntry data hkv hdec
    case h_2 kv hdec => cases h; exact .decode data kv hkv hdec
  case h_3 kv hkv => cases h; exact .apply kv hkv
  case h_4 hkv =>
    split at h
    case h_1 hdisk =>
      split_ifs at h with hmain
      · cases h; exact .replayDone hkv hdisk hmain
      · cases h; exact .readerDone hkv hdisk hmain
    case h_2 snap hdisk =>
      split at h
      case h_1 hun => cases h; exact .badSnapshot snap hkv hdisk hun
      case h_2 store hun => cases h; exact .load snap store hkv hdisk hun
  case h_5 store hkv => cases h; exact .recover store hkv
  case h_6 => cases h

theorem stepped_of_stepMain (h : stepMain s = some s') : Stepped c s .main s' := by
  unfold stepMain at h
  split at h
  case h_1 hmain => cases h; exact .assign hmain
  case h_2 hmain hpc => cases h; exact .serveError hmain hpc
  case h_3 => cases h

/-- **Inversion.**  A step is one of the cases of `Stepped`, taken by a live process. -/
theorem stepped_of_step (h : sysStep c s a = some s') : s.crash = none ∧ Stepped c s a s' := by
  unfold sysStep at h
  split_ifs at h with hcrash
  refine ⟨by simpa using hcrash, ?_⟩
  cases a with
  | loop => exact stepped_of_stepLoop h
  | send => exact stepped_of_stepSend h
  | kv => exact stepped_of_stepKv h
  | main => exact stepped_of_stepMain h

/-! ## What raft delivers -/

/-- The store after one more entry of the log. -/
def applyPayload (c : Codec) (m : Store) (p : Payload) : Store :=
  match p.value.bind c.decode with
  | none => m
  | some kv => m.insert kv.key kv.val

/-- The map obtained by applying the puts of the log with index at most `i`, in order. -/
def storeAt (c : Codec) (log : ℕ → Payload) : ℕ → Store
  | 0 => ∅
  | i + 1 => applyPayload c (storeAt c log i) (log (i + 1))

/-- The index reached by a batch of `n` entries from `first` on, from index `a`. -/
def reached (a first n : ℕ) : ℕ := a + (first + n - (a + 1))

/-- A snapshot whose data is the map it stands for. -/
def SnapshotRight (c : Codec) (log : ℕ → Payload) (snap : Snapshot) : Prop :=
  c.unmarshal snap.data = some (storeAt c log snap.index.toNat)

/-- The inputs that raft may still deliver when `a` is the applied index: batches of the
committed log that start at most one above it, and snapshots above it, of which `good` is
known.  Indices are below `2^64 - 1`. -/
inductive DeliversOf (good : Snapshot → Prop) (log : ℕ → Payload) : ℕ → List Input → Prop
  | nil (a : ℕ) : DeliversOf good log a []
  | close (a : ℕ) (failed : Bool) (rest : List Input) :
      DeliversOf good log a (.close failed :: rest)
  | entries (a first n : ℕ) (ents : List Entry) (rest : List Input) (hfirst : first ≤ a + 1)
      (hn : first + n < 2 ^ 64) (hrest : DeliversOf good log (reached a first n) rest) :
      DeliversOf good log a (.ready ⟨none, ents, span log first n⟩ :: rest)
  | snapshot (a first n : ℕ) (snap : Snapshot) (ents : List Entry) (rest : List Input)
      (habove : a < snap.index.toNat) (hlt : snap.index.toNat + 1 < 2 ^ 64)
      (hgood : good snap) (hfirst : first ≤ snap.index.toNat + 1) (hn : first + n < 2 ^ 64)
      (hrest : DeliversOf good log (reached snap.index.toNat first n) rest) :
      DeliversOf good log a (.ready ⟨some snap, ents, span log first n⟩ :: rest)

/-- The same with snapshots that have the right data. -/
abbrev Delivers (c : Codec) (log : ℕ → Payload) : ℕ → List Input → Prop :=
  DeliversOf (SnapshotRight c log) log

/-- A node may be started on this disk state: `good` is known of the snapshot, and the
entries of the log follow it. -/
structure DiskOf (good : Snapshot → Prop) (log : ℕ → Payload) (d : Disk) : Prop where
  snapshot_good : ∀ snap ∈ d.snapshot, good snap
  wal_next : ∃ n, d.wal = span log ((snapIndexD d.snapshot 0).toNat + 1) n ∧
    (snapIndexD d.snapshot 0).toNat + n + 1 < 2 ^ 64

/-- The same with a snapshot that has the right data. -/
abbrev DiskRight (c : Codec) (log : ℕ → Payload) : Disk → Prop := DiskOf (SnapshotRight c log) log

/-! ## The event loop stays on the log -/

variable {log : ℕ → Payload} {good : Snapshot → Prop}

/-- The entries in hand are the next ones of the committed log, and what raft still
delivers follows them. -/
def LoopTracksOf (good : Snapshot → Prop) (log : ℕ → Payload) (s : Sys) : Prop :=
  match s.pc with
  | .publish ents | .endNil ents =>
      ∃ n, ents = span log (s.node.appliedIndex.toNat + 1) n ∧
        s.node.appliedIndex.toNat + n + 1 < 2 ^ 64 ∧
        DeliversOf good log (s.node.appliedIndex.toNat + n) s.inbox
  | .snapshotNil index committed =>
      ∃ snap first n, s.disk = some snap ∧ snap.index = index ∧ good snap ∧
        s.node.appliedIndex.toNat < index.toNat ∧ index.toNat + 1 < 2 ^ 64 ∧
        committed = span log first n ∧ first ≤ index.toNat + 1 ∧ first + n < 2 ^ 64 ∧
        DeliversOf good log (reached index.toNat first n) s.inbox
  | .stopped _ => True
  | _ =>
      s.node.appliedIndex.toNat + 1 < 2 ^ 64 ∧
        DeliversOf good log s.node.appliedIndex.toNat s.inbox

/-- The same with snapshots that have the right data. -/
abbrev LoopTracks (c : Codec) (log : ℕ → Payload) : Sys → Prop :=
  LoopTracksOf (SnapshotRight c log) log

/-- A delivered batch goes to `publishEntries` from the next index on. -/
theorem toPublish_span {first n : ℕ} (hfirst : first ≤ s.node.appliedIndex.toNat + 1)
    (hn : first + n < 2 ^ 64) (happ : s.node.appliedIndex.toNat + 1 < 2 ^ 64) :
    s.toPublish (span log first n) =
      { s with
        pc := .publish (span log (s.node.appliedIndex.toNat + 1)
          (first + n - (s.node.appliedIndex.toNat + 1))) } := by
  unfold Sys.toPublish
  rw [entriesToApply_span hfirst hn happ]

theorem loopTracks_toPublish {first n : ℕ} (hfirst : first ≤ s.node.appliedIndex.toNat + 1)
    (hn : first + n < 2 ^ 64) (happ : s.node.appliedIndex.toNat + 1 < 2 ^ 64)
    (hrest : DeliversOf good log (reached s.node.appliedIndex.toNat first n) s.inbox) :
    LoopTracksOf good log (s.toPublish (span log first n)) := by
  rw [toPublish_span hfirst hn happ]
  refine ⟨first + n - (s.node.appliedIndex.toNat + 1), rfl, ?_, hrest⟩
  show s.node.appliedIndex.toNat + _ + 1 < 2 ^ 64
  omega

/-- The entry being published is the next one of the log. -/
theorem loopTracks_publish {e : Entry} {es : List Entry} (h : LoopTracksOf good log s)
    (hpc : s.pc = .publish (e :: es)) :
    e = entryAt log (s.node.appliedIndex.toNat + 1) ∧
      e.index.toNat = s.node.appliedIndex.toNat + 1 ∧
      ∃ n, es = span log (s.node.appliedIndex.toNat + 1 + 1) n ∧
        s.node.appliedIndex.toNat + 1 + n + 1 < 2 ^ 64 ∧
        DeliversOf good log (s.node.appliedIndex.toNat + 1 + n) s.inbox := by
  unfold LoopTracksOf at h
  rw [hpc] at h
  obtain ⟨n, hspan, hlt, hrest⟩ := h
  cases n with
  | zero => cases hspan
  | succ n =>
      rw [span_succ, List.cons.injEq] at hspan
      obtain ⟨rfl, rfl⟩ := hspan
      refine ⟨rfl, toNat_index_entryAt (by omega), n, rfl, by omega, ?_⟩
      rw [Nat.add_assoc, Nat.add_comm 1 n]
      exact hrest

theorem loopTracks_published {e : Entry} {es : List Entry} (h : LoopTracksOf good log s)
    (hpc : s.pc = .publish (e :: es)) (kv : KvAt) :
    LoopTracksOf good log (Sys.published { s with kv := kv } e es) := by
  obtain ⟨-, hidx, n, rfl, hlt, hrest⟩ := loopTracks_publish h hpc
  have htracks : ∃ m, span log (s.node.appliedIndex.toNat + 1 + 1) n =
      span log (e.index.toNat + 1) m ∧ e.index.toNat + m + 1 < 2 ^ 64 ∧
      DeliversOf good log (e.index.toNat + m) s.inbox := by
    rw [hidx]
    exact ⟨n, rfl, hlt, hrest⟩
  unfold LoopTracksOf Sys.published
  by_cases hlast : e.index = s.node.lastIndex
  · simp only [if_pos hlast]
    exact htracks
  · simp only [if_neg hlast]
    exact htracks

/-- `LoopTracks` at a known place of the event loop. -/
theorem loopTracks_at {pc : LoopAt} (h : LoopTracksOf good log s) (hpc : s.pc = pc) :
    LoopTracksOf good log { s with pc := pc } := by
  subst hpc
  exact h

/-- Steps that leave the event loop, its inputs and the disk alone. -/
theorem loopTracks_frame (h : LoopTracksOf good log s) (hnode : s'.node = s.node)
    (hpc : s'.pc = s.pc) (hin : s'.inbox = s.inbox) (hdisk : s'.disk = s.disk) :
    LoopTracksOf good log s' := by
  unfold LoopTracksOf at h ⊢
  rw [hnode, hpc, hin, hdisk]
  exact h

theorem loopTracks_start {id snapCount : UInt64} {d : Disk} {inbox : List Input}
    (hd : DiskOf good log d) (hin : DeliversOf good log (snapIndexD d.snapshot 0).toNat inbox) :
    LoopTracksOf good log (start id snapCount d inbox) := by
  obtain ⟨n, -, hlt⟩ := hd.wal_next
  unfold LoopTracksOf start
  by_cases hwal : d.wal = []
  · simp only [if_pos hwal]
    exact ⟨by omega, hin⟩
  · simp only [if_neg hwal]
    exact ⟨by omega, hin⟩

/-- **The event loop stays on the committed log.** -/
theorem loopTracks_step (h : LoopTracksOf good log s) (hstep : sysStep c s a = some s') :
    LoopTracksOf good log s' := by
  obtain ⟨-, hstep⟩ := stepped_of_step hstep
  cases hstep with
  | close failed rest hpc hin => trivial
  | take rd rest hpc hin hsnap =>
      unfold LoopTracksOf at h
      rw [hpc, hin] at h
      obtain ⟨happ, hdel⟩ := h
      cases hdel with
      | entries _ first n ents _ hfirst hn hrest => exact loopTracks_toPublish hfirst hn happ hrest
      | snapshot => cases hsnap
  | behind rd snap rest hpc hin hsnap hle =>
      unfold LoopTracksOf at h
      rw [hpc, hin] at h
      obtain ⟨-, hdel⟩ := h
      cases hdel with
      | entries => cases hsnap
      | snapshot _ first n _ ents _ habove hlt hgood hfirst hn hrest =>
          cases hsnap
          exact absurd (UInt64.le_iff_toNat_le.1 hle) (by omega)
  | snapshot rd snap rest hpc hin hsnap hlt =>
      unfold LoopTracksOf at h
      rw [hpc, hin] at h
      obtain ⟨-, hdel⟩ := h
      cases hdel with
      | entries => cases hsnap
      | snapshot _ first n _ ents _ habove hlt hgood hfirst hn hrest =>
          cases hsnap
          exact ⟨snap, first, n, rfl, rfl, hgood, habove, hlt, rfl, hfirst, hn, hrest⟩
  | publishedAll hpc =>
      unfold LoopTracksOf at h
      rw [hpc] at h
      obtain ⟨n, hspan, hlt, hrest⟩ := h
      cases n with
      | zero => exact ⟨hlt, hrest⟩
      | succ n => cases hspan
  | removed e es hpc hout => trivial
  | silent e es hpc hout hval => exact loopTracks_published h hpc s.kv
  | notDue hpc hdue =>
      have hhere := loopTracks_at h hpc
      exact hhere
  | getSnapshot hpc hdue hmain =>
      have hhere := loopTracks_at h hpc
      exact hhere
  | save data hpc =>
      have hhere := loopTracks_at h hpc
      exact hhere
  | sendReplayNil hkv hpc =>
      have hhere := loopTracks_at h hpc
      exact hhere
  | sendSnapshotNil index committed hkv hpc =>
      unfold LoopTracksOf at h
      rw [hpc] at h
      obtain ⟨snap, first, n, -, -, -, -, hlt, rfl, hfirst, hn, hrest⟩ := h
      exact loopTracks_toPublish hfirst hn hlt hrest
  | sendData e es data hkv hpc hval => exact loopTracks_published h hpc _
  | sendEndNil es hkv hpc =>
      have hhere := loopTracks_at h hpc
      exact hhere
  -- `readCommits` and `main` leave the event loop alone
  | _ => exact loopTracks_frame h rfl rfl rfl rfl

/-! ## The end of the replay -/

/-- `readCommits` has returned once, or is about to: it has been told that the replay is
over. -/
def ReplayTold (s : Sys) : Prop := s.main ≠ .replaying ∨ (s.kv = .load ∧ s.disk = none)

/-- The event loop is not at one of the two sends that end the replay. -/
def LoopAt.Plain : LoopAt → Prop
  | .replayNil | .endNil _ => False
  | _ => True

/-- The event loop has not stopped. -/
def LoopAt.Live : LoopAt → Prop
  | .stopped _ => False
  | _ => True

/-- The `nil` that ends the replay is sent once: with an empty log at the start, else
right after `lastIndex`; and before it `readCommits` does not return. -/
structure ReplayInv (s : Sys) : Prop where
  replayNil_last : s.pc = .replayNil → s.node.lastIndex = 0
  endNil_last : ∀ es, s.pc = .endNil es → s.node.appliedIndex = s.node.lastIndex
  told : ReplayTold s → s.pc.Live →
    s.node.lastIndex.toNat ≤ s.node.appliedIndex.toNat ∧ s.pc.Plain

/-- Steps of a live event loop to a place that is not one of the two sends. -/
theorem replayInv_move (h : ReplayInv s) (hlast : s'.node.lastIndex = s.node.lastIndex)
    (happ : s.node.appliedIndex.toNat ≤ s'.node.appliedIndex.toNat) (hpc : s'.pc.Plain)
    (hlive : s.pc.Live) (htold : ReplayTold s' → ReplayTold s) : ReplayInv s' := by
  refine ⟨fun hnil => ?_, fun es hnil => ?_, fun ht _ => ?_⟩
  · rw [hnil] at hpc
    exact hpc.elim
  · rw [hnil] at hpc
    exact hpc.elim
  · rw [hlast]
    exact ⟨Nat.le_trans (h.told (htold ht) hlive).1 happ, hpc⟩

/-- Steps that leave the event loop where it is. -/
theorem replayInv_frame (h : ReplayInv s) (hnode : s'.node = s.node) (hpc : s'.pc = s.pc)
    (htold : ReplayTold s' → ReplayTold s) : ReplayInv s' := by
  refine ⟨?_, ?_, fun ht => ?_⟩
  · rw [hpc, hnode]
    exact h.replayNil_last
  · rw [hpc, hnode]
    exact h.endNil_last
  · rw [hpc, hnode]
    exact h.told (htold ht)

theorem replayInv_stopped {failed : Bool} (hpc : s'.pc = .stopped failed) : ReplayInv s' := by
  refine ⟨fun hnil => ?_, fun es hnil => ?_, fun _ hlive => ?_⟩
  · rw [hpc] at hnil; cases hnil
  · rw [hpc] at hnil; cases hnil
  · rw [hpc] at hlive; exact hlive.elim

/-- A step that leaves `readCommits` elsewhere than at a load tells it nothing. -/
theorem replayTold_of_ne_load (hmain : s'.main = s.main) (hkv : s'.kv ≠ .load)
    (ht : ReplayTold s') : ReplayTold s :=
  ht.elim (fun h => Or.inl (hmain ▸ h)) fun h => absurd h.1 hkv

/-- Nor does a step that ends with a snapshot on disk. -/
theorem replayTold_of_disk {snap : Snapshot} (hmain : s'.main = s.main)
    (hdisk : s'.disk = some snap) (ht : ReplayTold s') : ReplayTold s :=
  ht.elim (fun h => Or.inl (hmain ▸ h)) fun h => absurd (hdisk.symm.trans h.2) (by simp)

theorem replayInv_published {e : Entry} {es : List Entry} (htracks : LoopTracksOf good log s)
    (h : ReplayInv s) (hpc : s.pc = .publish (e :: es)) (kv : KvAt)
    (hkv : kv = .load → s.kv = .load) :
    ReplayInv (Sys.published { s with kv := kv } e es) := by
  obtain ⟨-, hidx, -⟩ := loopTracks_publish htracks hpc
  refine ⟨fun hnil => ?_, fun es' hnil => ?_, fun ht _ => ?_⟩
  · unfold Sys.published at hnil
    dsimp only at hnil
    split_ifs at hnil
  · unfold Sys.published at hnil ⊢
    dsimp only at hnil ⊢
    split_ifs at hnil with hlast
    exact hlast
  · have ht' : ReplayTold s := ht.imp id fun ⟨h1, h2⟩ => ⟨hkv h1, h2⟩
    have hle := (h.told ht' (by rw [hpc]; trivial)).1
    -- the replayed log ends below this entry
    have hlast : e.index ≠ s.node.lastIndex := by
      intro heq
      rw [heq] at hidx
      omega
    unfold Sys.published
    dsimp only
    rw [if_neg hlast]
    exact ⟨by rw [hidx]; omega, trivial⟩

theorem replayInv_start {id snapCount : UInt64} {d : Disk} {inbox : List Input} :
    ReplayInv (start id snapCount d inbox) := by
  refine ⟨fun hnil => ?_, fun es hnil => ?_, fun ht _ => ?_⟩
  · have hwal : d.wal = [] := by
      by_contra hne
      rw [start, if_neg hne] at hnil
      cases hnil
    show lastIndexD d.wal 0 = 0
    rw [hwal]
    rfl
  · unfold start at hnil
    dsimp only at hnil
    split_ifs at hnil
  · rcases ht with h | ⟨h, -⟩
    · exact absurd rfl h
    · cases h

theorem toPublish_cases (s : Sys) (committed : List Entry) :
    s.toPublish committed = { s with crash := some .gapInCommitted } ∨
      ∃ ents, s.toPublish committed = { s with pc := .publish ents } := by
  unfold Sys.toPublish
  cases entriesToApply s.node committed with
  | error e => exact Or.inl rfl
  | ok ents => exact Or.inr ⟨ents, rfl⟩

/-- **The replay ends once.** -/
theorem replayInv_step (htracks : LoopTracksOf good log s) (h : ReplayInv s)
    (hstep : sysStep c s a = some s') : ReplayInv s' := by
  obtain ⟨-, hstep⟩ := stepped_of_step hstep
  cases hstep with
  | close failed rest hpc hin => exact replayInv_stopped rfl
  | take rd rest hpc hin hsnap =>
      rcases toPublish_cases { s with inbox := rest } rd.committed with heq | ⟨ents, heq⟩
      · rw [heq]
        exact replayInv_frame h rfl rfl id
      · rw [heq]
        exact replayInv_move h rfl (Nat.le_refl _) trivial (by rw [hpc]; trivial) id
  | behind rd snap rest hpc hin hsnap hle =>
      exact replayInv_frame h rfl rfl (replayTold_of_disk rfl rfl)
  | snapshot rd snap rest hpc hin hsnap hlt =>
      exact replayInv_move h rfl (Nat.le_refl _) trivial (by rw [hpc]; trivial)
        (replayTold_of_disk rfl rfl)
  | publishedAll hpc =>
      exact replayInv_move h rfl (Nat.le_refl _) trivial (by rw [hpc]; trivial) id
  | removed e es hpc hout => exact replayInv_stopped rfl
  | silent e es hpc hout hval => exact replayInv_published htracks h hpc s.kv id
  | notDue hpc hdue =>
      exact replayInv_move h rfl (Nat.le_refl _) trivial (by rw [hpc]; trivial) id
  | getSnapshot hpc hdue hmain =>
      exact replayInv_move h rfl (Nat.le_refl _) trivial (by rw [hpc]; trivial) id
  | nilStore hpc hdue hmain => exact replayInv_frame h rfl rfl id
  | save data hpc =>
      exact replayInv_move h rfl (Nat.le_refl _) trivial (by rw [hpc]; trivial)
        (replayTold_of_disk rfl rfl)
  | sendReplayNil hkv hpc =>
      refine ⟨nofun, fun _ => nofun, fun _ _ => ⟨?_, trivial⟩⟩
      show s.node.lastIndex.toNat ≤ _
      rw [h.replayNil_last hpc]
      exact Nat.zero_le _
  | sendSnapshotNil index committed hkv hpc =>
      unfold LoopTracksOf at htracks
      rw [hpc] at htracks
      obtain ⟨snap, first, n, hdisk, -, -, habove, -⟩ := htracks
      rcases toPublish_cases { s with
        node := { s.node with snapshotIndex := index, appliedIndex := index }
        kv := .load } committed with heq | ⟨ents, heq⟩
      · rw [heq]
        exact replayInv_move h rfl (Nat.le_of_lt habove) (by show s.pc.Plain; rw [hpc]; trivial)
          (by rw [hpc]; trivial) (replayTold_of_disk rfl hdisk)
      · rw [heq]
        exact replayInv_move h rfl (Nat.le_of_lt habove) trivial (by rw [hpc]; trivial)
          (replayTold_of_disk rfl hdisk)
  | sendData e es data hkv hpc hval => exact replayInv_published htracks h hpc _ nofun
  | sendEndNil es hkv hpc =>
      refine ⟨nofun, fun _ => nofun, fun _ _ => ⟨?_, trivial⟩⟩
      show s.node.lastIndex.toNat ≤ s.node.appliedIndex.toNat
      rw [h.endNil_last es hpc]
  | closedError hkv hpc => exact replayInv_frame h rfl rfl id
  | closed hkv hpc => exact replayInv_stopped hpc
  | badEntry data hkv hdec => exact replayInv_frame h rfl rfl id
  | decode data kv hkv hdec => exact replayInv_frame h rfl rfl (replayTold_of_ne_load rfl nofun)
  | apply kv hkv => exact replayInv_frame h rfl rfl (replayTold_of_ne_load rfl nofun)
  | replayDone hkv hdisk hmain => exact replayInv_frame h rfl rfl fun _ => Or.inr ⟨hkv, hdisk⟩
  | readerDone hkv hdisk hmain => exact replayInv_frame h rfl rfl fun _ => Or.inl hmain
  | badSnapshot snap hkv hdisk hun => exact replayInv_frame h rfl rfl id
  | load snap store hkv hdisk hun =>
      exact replayInv_frame h rfl rfl (replayTold_of_ne_load rfl nofun)
  | recover store hkv => exact replayInv_frame h rfl rfl (replayTold_of_ne_load rfl nofun)
  | assign hmain =>
      refine replayInv_frame h rfl rfl fun _ => Or.inl ?_
      rw [hmain]
      exact MainAt.noConfusion
  | serveError hmain hpc => exact replayInv_frame h rfl rfl id

end Goraft
