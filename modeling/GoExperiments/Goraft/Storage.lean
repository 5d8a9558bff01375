import GoExperiments.Goraft.Log

/-!
# Snapshot and compaction indices

Four indices move through the event loop: the offset and the last index of the
raft storage, and `snapshotIndex` and `appliedIndex` of the node.  They are moved by
committed batches, by snapshots received from the leader, by `maybeTriggerSnapshot`
and by a restart, and `maybeTriggerSnapshot` panics when they get out of order.

* `Storage` — the indices of etcd's `MemoryStorage`, and when its calls fail.
* `loopStep` — the event loop, one round cut into the handling of a `Ready` and the
  call of `maybeTriggerSnapshot`, together with restarts.
* `ordered_step` — each of the steps keeps the indices in order.
* `indices_legal` — so no run that raft can drive ends in a panic.
-/

namespace Goraft

open Runs Go

/-! ## The raft storage -/

/-- What ends the process: the errors and panics of the storage calls, and the
`log.Fatalf` calls of the event loop. -/
inductive Fault where
  | snapOutOfDate
  | snapOutOfBound
  | compacted
  | compactOutOfBound
  | missingLogEntry
  | gapInCommitted
  | snapshotBehind
  deriving DecidableEq, Repr

/-- The indices of `raft.MemoryStorage`: of the dummy entry in front of its log, of
the last entry, and of its snapshot. -/
structure Storage where
  offset : UInt64
  last : UInt64
  snapshot : UInt64
  deriving DecidableEq, Repr

/-- `raft.NewMemoryStorage()`. -/
def newMemoryStorage : Storage := ⟨0, 0, 0⟩

namespace Storage

/-- `CreateSnapshot(i, …)`: an error on an index that is not above the stored
snapshot, a panic on one above the last entry. -/
def createSnapshot (st : Storage) (i : UInt64) : Except Fault Storage :=
  if i ≤ st.snapshot then .error .snapOutOfDate
  else if i > st.last then .error .snapOutOfBound
  else .ok { st with snapshot := i }

/-- `Compact(i)`: an error on an index that is not above the offset, a panic on one
above the last entry. -/
def compact (st : Storage) (i : UInt64) : Except Fault Storage :=
  if i ≤ st.offset then .error .compacted
  else if i > st.last then .error .compactOutOfBound
  else .ok { st with offset := i }

/-- `ApplySnapshot`: the log is replaced by the snapshot; an older snapshot changes
nothing (the event loop ignores the error). -/
def applySnapshot (st : Storage) (i : UInt64) : Storage :=
  if i ≤ st.snapshot then st else ⟨i, i, i⟩

/-- `Append`: entries at or below the offset are dropped, a conflicting tail of the
log is replaced, and a gap after the last entry is a panic. -/
def append (st : Storage) (ents : List Entry) : Except Fault Storage :=
  match ents with
  | [] => .ok st
  | e :: _ =>
      let last := e.index + UInt64.ofNat ents.length - 1
      let first := if st.offset + 1 > e.index then st.offset + 1 else e.index
      if last < st.offset + 1 then .ok st
      else if first > st.last + 1 then .error .missingLogEntry
      else .ok { st with last := last }

end Storage

/-! ## The event loop -/

/-- `raftpb.Snapshot`: its index and the bytes of `getSnapshot`. -/
structure Snapshot where
  index : UInt64
  data : Bytes
  deriving DecidableEq, Repr

/-- `raft.Ready`, as the event loop uses it; no snapshot is the empty one. -/
structure Ready where
  snapshot : Option Snapshot
  entries : List Entry
  committed : List Entry
  deriving DecidableEq, Repr

/-- The test of `maybeTriggerSnapshot`. -/
def Node.due (rc : Node) : Bool := decide (¬ rc.appliedIndex - rc.snapshotIndex ≤ rc.snapCount)

/-- `publishSnapshot`, the `nil` on `commitC` aside. -/
def publishSnapshot (rc : Node) (index : UInt64) : Except Fault Node :=
  if index ≤ rc.appliedIndex then .error .snapshotBehind
  else .ok { rc with snapshotIndex := index, appliedIndex := index }

/-- The index to compact to. -/
def compactIndex (catchUp applied : UInt64) : UInt64 :=
  if applied > catchUp then applied - catchUp else 1

/-- `maybeTriggerSnapshot`; `catchUp` is `snapshotCatchUpEntriesN`. -/
def maybeTriggerSnapshot (catchUp : UInt64) (rc : Node) (st : Storage) :
    Except Fault (Node × Storage) :=
  if rc.due then
    match st.createSnapshot rc.appliedIndex with
    | .error f => .error f
    | .ok st =>
        match st.compact (compactIndex catchUp rc.appliedIndex) with
        | .error f => .error f
        | .ok st => .ok ({ rc with snapshotIndex := rc.appliedIndex }, st)
  else .ok (rc, st)

/-- The snapshot part of a round: `ApplySnapshot`, then `publishSnapshot`. -/
def receiveSnapshot (rc : Node) (st : Storage) : Option Snapshot → Except Fault (Node × Storage)
  | none => .ok (rc, st)
  | some snap =>
      match publishSnapshot rc snap.index with
      | .error f => .error f
      | .ok rc => .ok (rc, st.applySnapshot snap.index)

/-- A round of the event loop up to the result of `publishEntries`. -/
def handleReady (stop : StopSignal) (rc : Node) (st : Storage) (rd : Ready) :
    Except Fault (Node × Storage × Bool) :=
  match receiveSnapshot rc st rd.snapshot with
  | .error f => .error f
  | .ok (rc, st) =>
      match st.append rd.entries with
      | .error f => .error f
      | .ok st =>
          match entriesToApply rc rd.committed with
          | .error _ => .error .gapInCommitted
          | .ok ents =>
              let published := publishEntries stop rc ents
              .ok (published.2.1, st, published.2.2)

/-- The storage that `replayWAL` fills, and `lastIndex`. -/
def replayWAL (snapshot : Option Snapshot) (ents : List Entry) : Except Fault (Storage × UInt64) :=
  let st := match snapshot with
    | none => newMemoryStorage
    | some snap => newMemoryStorage.applySnapshot snap.index
  match st.append ents with
  | .error f => .error f
  | .ok st => .ok (st, (ents.getLast?.map Entry.index).getD 0)

/-- Where the event loop is. -/
inductive LoopPc where
  | select
  | trigger
  | stopped
  | dead (f : Fault)
  deriving DecidableEq, Repr

/-- The event loop and the storage it works on. -/
structure Loop where
  node : Node
  storage : Storage
  pc : LoopPc
  deriving DecidableEq, Repr

/-- A `Ready` is handled, `maybeTriggerSnapshot` is called, or the process is killed
and started again on what it left on disk. -/
inductive LoopAct where
  | ready (rd : Ready) (stop : StopSignal)
  | trigger
  | restart (snapshot : Option Snapshot) (ents : List Entry)

/-- The start of a node: `replayWAL`, then the first lines of `serveChannels`. -/
def startLoop (id snapCount : UInt64) (snapshot : Option Snapshot) (ents : List Entry) : Loop :=
  match replayWAL snapshot ents with
  | .error f => ⟨⟨id, 0, 0, 0, snapCount⟩, newMemoryStorage, .dead f⟩
  | .ok (st, last) => ⟨⟨id, last, st.snapshot, st.snapshot, snapCount⟩, st, .select⟩

/-- One step of the event loop. -/
def loopStep (catchUp : UInt64) (s : Loop) : LoopAct → Option Loop
  | .ready rd stop =>
      if s.pc = .select then
        match handleReady stop s.node s.storage rd with
        | .error f => some { s with pc := .dead f }
        | .ok (rc, st, ok) => some ⟨rc, st, if ok then .trigger else .stopped⟩
      else none
  | .trigger =>
      if s.pc = .trigger then
        match maybeTriggerSnapshot catchUp s.node s.storage with
        | .error f => some { s with pc := .dead f }
        | .ok (rc, st) => some ⟨rc, st, .select⟩
      else none
  | .restart snapshot ents => some (startLoop s.node.id s.node.snapCount snapshot ents)

/-! ## What raft guarantees -/

/-- The index of an optional snapshot, or a default. -/
def snapIndexD (snapshot : Option Snapshot) (i : UInt64) : UInt64 :=
  (snapshot.map Snapshot.index).getD i

/-- The last stored index after `ents` are appended. -/
def lastIndexD (ents : List Entry) (i : UInt64) : UInt64 := (ents.getLast?.map Entry.index).getD i

/-- A `Ready` as raft builds it: a snapshot is above `appliedIndex`; new entries come
after the applied ones without a gap; committed entries are consecutive, start at
most one above `appliedIndex`, and have been appended.  Indices are below `2^64 - 1`. -/
structure ReadyLegal (s : Loop) (rd : Ready) : Prop where
  snapshot_above : ∀ snap ∈ rd.snapshot,
    s.node.appliedIndex < snap.index ∧ snap.index.toNat + 1 < 2 ^ 64
  entries_after : ∃ log first n, rd.entries = span log first n ∧ first + n < 2 ^ 64 ∧
    (snapIndexD rd.snapshot s.node.appliedIndex).toNat < first ∧
    first ≤ (snapIndexD rd.snapshot s.storage.last).toNat + 1
  committed_next : ∃ log first n, rd.committed = span log first n ∧ first + n < 2 ^ 64 ∧
    first ≤ (snapIndexD rd.snapshot s.node.appliedIndex).toNat + 1
  committed_stored : ∀ e ∈ rd.committed,
    e.index ≤ lastIndexD rd.entries (snapIndexD rd.snapshot s.storage.last)

/-- What is found on disk: a snapshot or none, and the entries after it. -/
def DurableLegal (snapshot : Option Snapshot) (ents : List Entry) : Prop :=
  ∃ log n, ents = span log ((snapIndexD snapshot 0).toNat + 1) n ∧
    (snapIndexD snapshot 0).toNat + n + 1 < 2 ^ 64

/-- What raft and the disk may offer to the event loop. -/
def ActLegal (s : Loop) : LoopAct → Prop
  | .ready rd _ => ReadyLegal s rd
  | .trigger => True
  | .restart snapshot ents => DurableLegal snapshot ents

/-! ## The order of the indices -/

/-- The indices are in order, and nothing has gone wrong. -/
structure Ordered (catchUp : UInt64) (s : Loop) : Prop where
  offset_le : s.storage.offset.toNat ≤ s.node.snapshotIndex.toNat
  snapshot_le : s.node.snapshotIndex.toNat ≤ s.node.appliedIndex.toNat
  applied_le : s.node.appliedIndex.toNat ≤ s.storage.last.toNat
  last_lt : s.storage.last.toNat + 1 < 2 ^ 64
  stored : s.storage.snapshot = s.node.snapshotIndex
  tunables : catchUp.toNat ≤ s.node.snapCount.toNat
  alive : ∀ f, s.pc ≠ .dead f

variable {log : ℕ → Payload}

theorem toNat_succ {i : UInt64} (h : i.toNat + 1 < 2 ^ 64) : (i + 1).toNat = i.toNat + 1 := by
  rw [UInt64.toNat_add]
  simp only [UInt64.reduceToNat]
  omega

theorem toNat_sub {i j : UInt64} (h : j.toNat ≤ i.toNat) : (i - j).toNat = i.toNat - j.toNat :=
  UInt64.toNat_sub_of_le i j (UInt64.le_iff_toNat_le.2 h)

/-- The last index of a span. -/
theorem toNat_lastIndexD_span {first n : ℕ} (hn : first + n < 2 ^ 64) (i : UInt64) :
    (lastIndexD (span log first n) i).toNat = if n = 0 then i.toNat else first + n - 1 := by
  cases n with
  | zero => rfl
  | succ n =>
      have hlast : span log first (n + 1) = span log first n ++ [entryAt log (first + n)] := by
        rw [span, span, List.range'_1_concat, List.map_append]
        rfl
      rw [hlast, lastIndexD, List.getLast?_concat, if_neg (by omega)]
      show (entryAt log (first + n)).index.toNat = _
      rw [toNat_index_entryAt (by omega)]
      omega

/-- Appending a span that follows the log without a gap. -/
theorem append_span {st : Storage} {first n : ℕ} (hn : first + n < 2 ^ 64)
    (hlast : st.last.toNat + 1 < 2 ^ 64) (hoff : st.offset.toNat < first)
    (hfirst : first ≤ st.last.toNat + 1) :
    st.append (span log first n) = .ok { st with last := lastIndexD (span log first n) st.last } := by
  cases n with
  | zero => rfl
  | succ n =>
      have hidx : (entryAt log first).index.toNat = first := toNat_index_entryAt (by omega)
      have hend : (entryAt log first).index + UInt64.ofNat (span log first (n + 1)).length - 1 =
          lastIndexD (span log first (n + 1)) st.last := by
        rw [← UInt64.toNat_inj, toNat_lastIndexD_span hn, length_span, if_neg (by omega),
          UInt64.toNat_sub, UInt64.toNat_add, hidx, UInt64.toNat_ofNat_of_lt' (by
            show n + 1 < 2 ^ 64
            omega)]
        simp only [UInt64.reduceToNat]
        omega
      have hoff' : (st.offset + 1).toNat = st.offset.toNat + 1 := toNat_succ (by omega)
      have hlast' : (st.last + 1).toNat = st.last.toNat + 1 := toNat_succ hlast
      have hkeep : ¬ lastIndexD (span log first (n + 1)) st.last < st.offset + 1 := by
        rw [UInt64.lt_iff_toNat_lt, toNat_lastIndexD_span hn, hoff', if_neg (by omega)]
        omega
      have hcut : ¬ st.offset + 1 > (entryAt log first).index := by
        rw [gt_iff_lt, UInt64.lt_iff_toNat_lt, hoff', hidx]
        omega
      have hgap : ¬ (entryAt log first).index > st.last + 1 := by
        rw [gt_iff_lt, UInt64.lt_iff_toNat_lt, hlast', hidx]
        omega
      unfold Storage.append
      rw [span_succ]
      show (if _ then _ else if (if _ then _ else _) > _ then _ else _) = _
      rw [← span_succ, hend, if_neg hkeep, if_neg hcut, if_neg hgap]

/-- After one round of its loop `publishEntries` has ended before or after
`appliedIndex` is set, or it goes on with the rest. -/
theorem publishEntries_cons_node (stop : StopSignal) (rc : Node) (e : Entry) (es : List Entry) :
    (publishEntries stop rc (e :: es)).2.1 = rc ∨
      (publishEntries stop rc (e :: es)).2.1 = { rc with appliedIndex := e.index } ∨
      (publishEntries stop rc (e :: es)).2.1 =
        (publishEntries stop { rc with appliedIndex := e.index } es).2.1 := by
  rw [publishEntries]
  cases e.payload.outputs rc.id with
  | none => exact Or.inl rfl
  | some out =>
      dsimp only
      split_ifs
      · exact Or.inl rfl
      · exact Or.inr (Or.inl rfl)
      · exact Or.inr (Or.inr rfl)
      · exact Or.inr (Or.inr rfl)

/-- Whatever the stop signal does, publishing a span leaves `appliedIndex` inside it
and the other fields alone. -/
theorem publishEntries_node (stop : StopSignal) {rc : Node} {n : ℕ}
    (hn : rc.appliedIndex.toNat + n < 2 ^ 64) :
    ∃ k ≤ n, (publishEntries stop rc (span log (rc.appliedIndex.toNat + 1) n)).2.1 =
      { rc with appliedIndex := UInt64.ofNat (rc.appliedIndex.toNat + k) } := by
  induction n generalizing rc with
  | zero =>
      refine ⟨0, Nat.le_refl 0, ?_⟩
      have hidx : UInt64.ofNat (rc.appliedIndex.toNat + 0) = rc.appliedIndex := UInt64.ofNat_toNat
      rw [hidx]
      rfl
  | succ n ih =>
      have hidx : (UInt64.ofNat (rc.appliedIndex.toNat + 1)).toNat = rc.appliedIndex.toNat + 1 :=
        UInt64.toNat_ofNat_of_lt' (by show _ < 2 ^ 64; omega)
      rw [span_succ]
      obtain h | h | h := publishEntries_cons_node stop rc (entryAt log (rc.appliedIndex.toNat + 1))
        (span log (rc.appliedIndex.toNat + 1 + 1) n)
      · refine ⟨0, Nat.zero_le _, h.trans ?_⟩
        have hzero : UInt64.ofNat (rc.appliedIndex.toNat + 0) = rc.appliedIndex := UInt64.ofNat_toNat
        rw [hzero]
      · exact ⟨1, by omega, h⟩
      · obtain ⟨k, hk, hrest⟩ := @ih
          { rc with appliedIndex := UInt64.ofNat (rc.appliedIndex.toNat + 1) }
          (by rw [hidx]; omega)
        simp only [hidx] at hrest
        refine ⟨k + 1, by omega, h.trans ?_⟩
        rw [Nat.add_comm k 1, ← Nat.add_assoc]
        exact hrest

/-! ## Each step keeps the order -/

variable {catchUp : UInt64} {s s' : Loop}

/-- The node and storage after the snapshot part of a legal round. -/
theorem receiveSnapshot_legal {rd : Ready} (hs : Ordered catchUp s) (hrd : ReadyLegal s rd) :
    ∃ rc st, receiveSnapshot s.node s.storage rd.snapshot = .ok (rc, st) ∧
      Ordered catchUp ⟨rc, st, .select⟩ ∧
      rc.appliedIndex = snapIndexD rd.snapshot s.node.appliedIndex ∧
      st.last = snapIndexD rd.snapshot s.storage.last := by
  cases hsnap : rd.snapshot with
  | none =>
      refine ⟨s.node, s.storage, rfl, ?_, rfl, rfl⟩
      exact ⟨hs.offset_le, hs.snapshot_le, hs.applied_le, hs.last_lt, hs.stored, hs.tunables,
        fun f => LoopPc.noConfusion⟩
  | some snap =>
      obtain ⟨habove, hlt⟩ := hrd.snapshot_above snap hsnap
      have hnew : ¬ snap.index ≤ s.node.appliedIndex := UInt64.not_le.2 habove
      have hnew' : ¬ snap.index ≤ s.storage.snapshot := by
        rw [hs.stored, UInt64.le_iff_toNat_le]
        rw [UInt64.lt_iff_toNat_lt] at habove
        have := hs.snapshot_le
        omega
      refine ⟨{ s.node with snapshotIndex := snap.index, appliedIndex := snap.index },
        ⟨snap.index, snap.index, snap.index⟩, ?_, ?_, rfl, rfl⟩
      · rw [receiveSnapshot, publishSnapshot, if_neg hnew, Storage.applySnapshot, if_neg hnew']
      · exact ⟨Nat.le_refl _, Nat.le_refl _, Nat.le_refl _, hlt, rfl, hs.tunables,
          fun f => LoopPc.noConfusion⟩

/-- **A round up to `publishEntries`** keeps the indices in order. -/
theorem handleReady_legal {rd : Ready} (stop : StopSignal) (hs : Ordered catchUp s)
    (hrd : ReadyLegal s rd) :
    ∃ rc st ok, handleReady stop s.node s.storage rd = .ok (rc, st, ok) ∧
      Ordered catchUp ⟨rc, st, .select⟩ := by
  obtain ⟨rc, st, hrecv, hord, happ, hlast⟩ := receiveSnapshot_legal hs hrd
  obtain ⟨log, first, n, hents, hn, hafter, hgap⟩ := hrd.entries_after
  obtain ⟨log', first', n', hcomm, hn', hnext⟩ := hrd.committed_next
  have hstored := hrd.committed_stored
  rw [← happ] at hafter hnext
  rw [← hlast] at hgap hstored
  rw [hents] at hstored
  have hoff := Nat.le_trans hord.offset_le hord.snapshot_le
  have happend := @append_span log st first n hn hord.last_lt
    (Nat.lt_of_le_of_lt hoff hafter) hgap
  -- the stored log still reaches the applied entries: new ones come after them
  have hend := @toNat_lastIndexD_span log first n hn st.last
  have happlied : rc.appliedIndex.toNat ≤ (lastIndexD (span log first n) st.last).toNat := by
    have := hord.applied_le
    rw [hend]
    dsimp only at this
    split_ifs <;> omega
  have hbound : (lastIndexD (span log first n) st.last).toNat + 1 < 2 ^ 64 := by
    have := hord.last_lt
    rw [hend]
    dsimp only at this
    split_ifs <;> omega
  have happ_lt : rc.appliedIndex.toNat + 1 < 2 ^ 64 := by omega
  obtain ⟨k, hk, hnode⟩ := @publishEntries_node log' stop rc
    (first' + n' - (rc.appliedIndex.toNat + 1)) (by omega)
  -- the committed entries are in the stored log
  have hreach : rc.appliedIndex.toNat + (first' + n' - (rc.appliedIndex.toNat + 1)) ≤
      (lastIndexD (span log first n) st.last).toNat := by
    by_cases hnone : first' + n' ≤ rc.appliedIndex.toNat + 1
    · omega
    · have hmem : entryAt log' (first' + n' - 1) ∈ rd.committed := by
        rw [hcomm, span, List.mem_map]
        exact ⟨first' + n' - 1, List.mem_range'_1.2 (by omega), rfl⟩
      have := hstored _ hmem
      rw [UInt64.le_iff_toNat_le, toNat_index_entryAt (by omega)] at this
      omega
  refine ⟨{ rc with appliedIndex := UInt64.ofNat (rc.appliedIndex.toNat + k) },
    { st with last := lastIndexD (span log first n) st.last },
    (publishEntries stop rc (span log' (rc.appliedIndex.toNat + 1)
      (first' + n' - (rc.appliedIndex.toNat + 1)))).2.2, ?_, ?_⟩
  · simp only [handleReady, hrecv, hents, happend, hcomm, entriesToApply_span hnext hn' happ_lt,
      hnode]
  · have hk' : (UInt64.ofNat (rc.appliedIndex.toNat + k)).toNat = rc.appliedIndex.toNat + k :=
      UInt64.toNat_ofNat_of_lt' (by show _ < 2 ^ 64; omega)
    refine ⟨hord.offset_le, ?_, ?_, hbound, hord.stored, hord.tunables, fun f => LoopPc.noConfusion⟩
    · show rc.snapshotIndex.toNat ≤ (UInt64.ofNat _).toNat
      have := hord.snapshot_le
      rw [hk']
      dsimp only at this
      omega
    · show (UInt64.ofNat _).toNat ≤ _
      rw [hk']
      show _ ≤ (lastIndexD (span log first n) st.last).toNat
      omega

/-- **`maybeTriggerSnapshot`** finds legal indices.  When the test passes, more than
`snapCount` entries, so more than `catchUp`, were applied since the last snapshot;
hence the index to compact to is above that snapshot, and that is above the offset. -/
theorem maybeTriggerSnapshot_legal (hs : Ordered catchUp s) :
    ∃ rc st, maybeTriggerSnapshot catchUp s.node s.storage = .ok (rc, st) ∧
      Ordered catchUp ⟨rc, st, .select⟩ := by
  have h1 := hs.offset_le
  have h2 := hs.snapshot_le
  have h3 := hs.applied_le
  have h4 := hs.tunables
  unfold maybeTriggerSnapshot
  by_cases hdue : s.node.due
  · have hmore : s.node.snapCount.toNat < s.node.appliedIndex.toNat - s.node.snapshotIndex.toNat := by
      unfold Node.due at hdue
      rw [decide_eq_true_eq, UInt64.not_le, UInt64.lt_iff_toNat_lt, toNat_sub h2] at hdue
      exact hdue
    have hgt : s.node.appliedIndex > catchUp := by
      rw [gt_iff_lt, UInt64.lt_iff_toNat_lt]
      omega
    have hindex : (compactIndex catchUp s.node.appliedIndex).toNat =
        s.node.appliedIndex.toNat - catchUp.toNat := by
      rw [compactIndex, if_pos hgt, toNat_sub (by omega)]
    have hcreate : s.storage.createSnapshot s.node.appliedIndex =
        .ok { s.storage with snapshot := s.node.appliedIndex } := by
      rw [Storage.createSnapshot, if_neg, if_neg]
      · rw [gt_iff_lt, UInt64.lt_iff_toNat_lt]
        omega
      · rw [hs.stored, UInt64.le_iff_toNat_le]
        omega
    have hcompact : ({ s.storage with snapshot := s.node.appliedIndex } : Storage).compact
        (compactIndex catchUp s.node.appliedIndex) =
        .ok { s.storage with
          snapshot := s.node.appliedIndex
          offset := compactIndex catchUp s.node.appliedIndex } := by
      rw [Storage.compact, if_neg, if_neg]
      · rw [gt_iff_lt, UInt64.lt_iff_toNat_lt, hindex]
        show ¬ s.storage.last.toNat < _
        omega
      · rw [UInt64.le_iff_toNat_le, hindex]
        show ¬ _ ≤ s.storage.offset.toNat
        omega
    refine ⟨{ s.node with snapshotIndex := s.node.appliedIndex },
      ⟨compactIndex catchUp s.node.appliedIndex, s.storage.last, s.node.appliedIndex⟩, ?_, ?_⟩
    · rw [if_pos hdue]
      simp only [hcreate, hcompact]
    refine ⟨?_, Nat.le_refl _, h3, hs.last_lt, rfl, h4, fun f => LoopPc.noConfusion⟩
    show (compactIndex catchUp s.node.appliedIndex).toNat ≤ s.node.appliedIndex.toNat
    omega
  · refine ⟨s.node, s.storage, by rw [if_neg hdue], ?_⟩
    exact ⟨h1, h2, h3, hs.last_lt, hs.stored, h4, fun f => LoopPc.noConfusion⟩

/-- The storage before the entries of the log are appended. -/
theorem startStorage_eq (snapshot : Option Snapshot) :
    (match snapshot with
      | none => newMemoryStorage
      | some snap => newMemoryStorage.applySnapshot snap.index) =
      ⟨snapIndexD snapshot 0, snapIndexD snapshot 0, snapIndexD snapshot 0⟩ := by
  cases snapshot with
  | none => rfl
  | some snap =>
      show (if snap.index ≤ 0 then (⟨0, 0, 0⟩ : Storage) else _) = _
      by_cases hzero : snap.index ≤ 0
      · have : snap.index = 0 :=
          UInt64.toNat_inj.1 (Nat.le_zero.1 (UInt64.le_iff_toNat_le.1 hzero))
        rw [if_pos hzero]
        show _ = Storage.mk snap.index snap.index snap.index
        rw [this]
      · rw [if_neg hzero]
        rfl

/-- What a node makes of a legal disk state at start. -/
theorem startLoop_eq {id snapCount : UInt64} {snapshot : Option Snapshot} {ents : List Entry}
    (h : DurableLegal snapshot ents) :
    startLoop id snapCount snapshot ents =
      ⟨⟨id, lastIndexD ents 0, snapIndexD snapshot 0, snapIndexD snapshot 0, snapCount⟩,
        ⟨snapIndexD snapshot 0, lastIndexD ents (snapIndexD snapshot 0), snapIndexD snapshot 0⟩,
        .select⟩ := by
  obtain ⟨log, n, rfl, hn⟩ := h
  have happend := @append_span log
    ⟨snapIndexD snapshot 0, snapIndexD snapshot 0, snapIndexD snapshot 0⟩
    ((snapIndexD snapshot 0).toNat + 1) n (by omega)
    (by show (snapIndexD snapshot 0).toNat + 1 < 2 ^ 64; omega)
    (Nat.lt_succ_self _) (Nat.le_refl _)
  simp only [startLoop, replayWAL, startStorage_eq, happend]
  rfl

/-- A node that is started on a legal disk state has its indices in order. -/
theorem ordered_startLoop {id snapCount : UInt64} {snapshot : Option Snapshot} {ents : List Entry}
    (htun : catchUp.toNat ≤ snapCount.toNat) (h : DurableLegal snapshot ents) :
    Ordered catchUp (startLoop id snapCount snapshot ents) := by
  rw [startLoop_eq h]
  obtain ⟨log, n, rfl, hn⟩ := h
  have hend := @toNat_lastIndexD_span log ((snapIndexD snapshot 0).toNat + 1) n
    (by omega) (snapIndexD snapshot 0)
  refine ⟨Nat.le_refl _, Nat.le_refl _, ?_, ?_, rfl, htun, fun f => LoopPc.noConfusion⟩
  · show (snapIndexD snapshot 0).toNat ≤ (lastIndexD _ _).toNat
    rw [hend]
    split_ifs <;> omega
  · show (lastIndexD _ _).toNat + 1 < _
    rw [hend]
    split_ifs <;> omega

/-- **The step lemma.**  Every step that raft or the disk may offer keeps the
indices in order. -/
theorem ordered_step {a : LoopAct} (hs : Ordered catchUp s) (ha : ActLegal s a)
    (h : loopStep catchUp s a = some s') : Ordered catchUp s' := by
  cases a with
  | ready rd stop =>
      obtain ⟨rc, st, ok, heq, hord⟩ := handleReady_legal stop hs ha
      rw [loopStep, heq] at h
      split_ifs at h
      cases h
      refine ⟨hord.offset_le, hord.snapshot_le, hord.applied_le, hord.last_lt, hord.stored,
        hord.tunables, fun f => ?_⟩
      cases ok <;> exact LoopPc.noConfusion
  | trigger =>
      obtain ⟨rc, st, heq, hord⟩ := maybeTriggerSnapshot_legal hs
      rw [loopStep, heq] at h
      split_ifs at h
      cases h
      exact hord
  | restart snapshot ents =>
      cases h
      exact ordered_startLoop hs.tunables ha

/-- **Snapshot and compaction indices stay legal.**  In every run of the event loop,
from every start on a disk state and through restarts, with
`snapshotCatchUpEntriesN ≤ snapCount`, the offset, `snapshotIndex`, `appliedIndex` and
the last stored index are in this order in every state; neither the subtraction of
`maybeTriggerSnapshot` that decides nor the one of `compactIndex`, behind its guard, wraps; and no
call ends in an error or a panic. -/
theorem indices_legal (catchUp id snapCount : UInt64) (snapshot : Option Snapshot)
    (ents : List Entry) (acts : List LoopAct) (htun : catchUp ≤ snapCount)
    (hdisk : DurableLegal snapshot ents)
    (hacts : Offered (loopStep catchUp) ActLegal (startLoop id snapCount snapshot ents) acts) :
    Always (loopStep catchUp)
      (fun s => s.storage.offset ≤ s.node.snapshotIndex ∧
        s.node.snapshotIndex ≤ s.node.appliedIndex ∧ s.node.appliedIndex ≤ s.storage.last ∧
        (s.node.appliedIndex - s.node.snapshotIndex).toNat =
          s.node.appliedIndex.toNat - s.node.snapshotIndex.toNat ∧
        (s.node.appliedIndex > catchUp →
          (s.node.appliedIndex - catchUp).toNat = s.node.appliedIndex.toNat - catchUp.toNat) ∧
        (∃ rc st, maybeTriggerSnapshot catchUp s.node s.storage = .ok (rc, st)) ∧
        ∀ f, s.pc ≠ .dead f)
      (startLoop id snapCount snapshot ents) acts := by
  have hord : Always (loopStep catchUp) (Ordered catchUp) (startLoop id snapCount snapshot ents)
      acts := by
    refine always_of_eachStep (ordered_startLoop (UInt64.le_iff_toNat_le.1 htun) hdisk)
      (fun s a s' hs ha h => ordered_step hs ha h) ?_
    intro pre a post t t' hsplit hrun _
    exact hacts pre a post t hsplit hrun
  intro pre post t hsplit hrun
  have ht := hord pre post t hsplit hrun
  obtain ⟨rc, st, htrig, -⟩ := maybeTriggerSnapshot_legal ht
  refine ⟨UInt64.le_iff_toNat_le.2 ht.offset_le, UInt64.le_iff_toNat_le.2 ht.snapshot_le,
    UInt64.le_iff_toNat_le.2 ht.applied_le, toNat_sub ht.snapshot_le, fun hguard => ?_,
    ⟨rc, st, htrig⟩, ht.alive⟩
  exact toNat_sub (Nat.le_of_lt (UInt64.lt_iff_toNat_lt.1 hguard))

/-- Three committed entries with both tunables at 2: the snapshot at index 3 is created
and the log compacted. -/
theorem indices_legal_three :
    ∃ t, run (loopStep 2) (startLoop 1 2 none (span sampleLog 1 3))
        [.ready ⟨none, [], span sampleLog 1 3⟩ noStop, .trigger] = some t ∧
      t.node.snapshotIndex = 3 ∧ t.storage.offset ≤ t.node.snapshotIndex := by
  have hacts : Offered (loopStep 2) ActLegal (startLoop 1 2 none (span sampleLog 1 3))
      [.ready ⟨none, [], span sampleLog 1 3⟩ noStop, .trigger] := by
    refine offered_cons.2 ⟨⟨by simp, ⟨sampleLog, 4, 0, rfl, by decide, by decide, by decide⟩,
      ⟨sampleLog, 1, 3, rfl, by decide, by decide⟩, by decide⟩, fun s₁ _ => ?_⟩
    exact offered_cons.2 ⟨trivial, fun s₂ _ => offered_nil _ s₂⟩
  have h := indices_legal 2 1 2 none (span sampleLog 1 3) _ (by decide)
    ⟨sampleLog, 3, rfl, by decide⟩ hacts
  exact ⟨⟨⟨1, 3, 3, 3, 2⟩, ⟨1, 3, 3⟩, .select⟩, rfl, rfl, (always_final h rfl).1⟩

end Goraft
