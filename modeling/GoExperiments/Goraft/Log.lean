import Mathlib.Algebra.Group.Nat.Defs
import Mathlib.Data.List.Range
import Mathlib.Tactic.SplitIfs
import GoExperiments.Lib.GoBasic
import GoExperiments.Lib.Runs

/-!
# Committed entries on their way to the store

The raft event loop hands each batch of committed entries to `entriesToApply`,
which drops what was applied before, and then to `publishEntries`, which sends
the data of the normal entries on `commitC`, moves `appliedIndex` along and sends
one `nil` after the last entry of the replayed log.  The indices are `uint64`, and
the cut `appliedIndex - firstIdx + 1` wraps around in the ordinary case.

* `entriesToApply_span` — on a batch of consecutive entries that starts at most
  one above `appliedIndex`, the cut leaves exactly the entries above it.
* `publishEntries_span` — publishing consecutive entries sends their values in
  order and stops at the last index.
* `published_in_order` — over any sequence of batches, each committed entry is
  applied once and in order.
-/

namespace Goraft

open Runs Go

/-! ## Entries -/

/-- A configuration change, as `cc.Unmarshal` reads it from the entry's data. -/
inductive ConfChange where
  | addNode (nodeID : UInt64) (context : Bytes)
  | removeNode (nodeID : UInt64)
  | updateNode (nodeID : UInt64)
  deriving DecidableEq, Repr

/-- What an entry holds, by `raftpb.EntryType`. -/
inductive Payload where
  | normal (data : Bytes)
  | confChange (cc : ConfChange)
  deriving DecidableEq, Repr

/-- `raftpb.Entry`, without its term. -/
structure Entry where
  index : UInt64
  payload : Payload
  deriving DecidableEq, Repr

/-- The fields of `raftNode` that the event loop reads and writes. -/
structure Node where
  id : UInt64
  /-- index of the last entry of the log replayed at start, 0 if there is none -/
  lastIndex : UInt64
  snapshotIndex : UInt64
  appliedIndex : UInt64
  snapCount : UInt64
  deriving DecidableEq, Repr

/-- What `publishEntries` does to the outside: sends on `commitC` (`none` is the
`nil` message) and calls of the transport. -/
inductive Output where
  | commit (data : Option Bytes)
  | addPeer (nodeID : UInt64) (url : Bytes)
  | removePeer (nodeID : UInt64)
  deriving DecidableEq, Repr

/-- The value sent for an entry: the data of a normal entry, unless it is empty. -/
def Payload.value : Payload → Option Bytes
  | .normal data => if data = [] then none else some data
  | .confChange _ => none

/-! ## The two functions -/

/-- `entriesToApply`; the error is the `log.Fatalf` on a gap. -/
def entriesToApply (rc : Node) (ents : List Entry) : Except String (List Entry) :=
  match ents with
  | [] => .ok []
  | first :: _ =>
      if first.index > rc.appliedIndex + 1 then
        .error ("first index of committed entry[" ++ toString first.index ++
          "] should <= progress.appliedIndex[" ++ toString rc.appliedIndex ++ "] 1")
      else if rc.appliedIndex - first.index + 1 < UInt64.ofNat ents.length then
        .ok (ents.drop (rc.appliedIndex - first.index + 1).toNat)
      else .ok []

/-- The `switch` on the entry's type: its outputs, and `none` when the entry removes
this node, on which `publishEntries` returns `false`. -/
def Payload.outputs (id : UInt64) : Payload → Option (List Output)
  | .normal data => some (if data = [] then [] else [.commit (some data)])
  | .confChange (.addNode n ctx) => some (if ctx = [] then [] else [.addPeer n ctx])
  | .confChange (.removeNode n) => if n = id then none else some [.removePeer n]
  | .confChange (.updateNode _) => some []

/-- Which selects of `publishEntries` take the stop signal: those at which a message
(`none` is `nil`) of the entry with a given index is offered on `commitC`. -/
abbrev StopSignal := UInt64 → Option Bytes → Bool

/-- No stop signal: every send is received. -/
def noStop : StopSignal := fun _ _ => false

/-- `publishEntries`: the outputs in order, the node afterwards, and the result. -/
def publishEntries (stop : StopSignal) (rc : Node) : List Entry → List Output × Node × Bool
  | [] => ([], rc, true)
  | e :: es =>
      match e.payload.outputs rc.id with
      | none => ([], rc, false)
      | some out =>
          if e.payload.value.any fun data => stop e.index (some data) then ([], rc, false)
          else
            -- after commit, update appliedIndex
            let rc' := { rc with appliedIndex := e.index }
            if e.index = rc.lastIndex then
              -- special nil commit to signal replay has finished
              if stop e.index none then (out, rc', false)
              else
                let rest := publishEntries stop rc' es
                (out ++ .commit none :: rest.1, rest.2)
            else
              let rest := publishEntries stop rc' es
              (out ++ rest.1, rest.2)

/-- The messages among the outputs that go to `commitC`. -/
def commits (out : List Output) : List (Option Bytes) :=
  out.filterMap fun
    | .commit data => some data
    | _ => none

/-! ## The log that raft delivers -/

/-- The entry of the committed log at index `i`. -/
def entryAt (log : ℕ → Payload) (i : ℕ) : Entry := ⟨UInt64.ofNat i, log i⟩

/-- The `n` entries of the committed log from index `first` on. -/
def span (log : ℕ → Payload) (first n : ℕ) : List Entry :=
  (List.range' first n).map (entryAt log)

/-- What is sent on `commitC` for the entry at index `i`: its value, and `nil` after
the last entry of the replayed log. -/
def messagesAt (log : ℕ → Payload) (last i : ℕ) : List (Option Bytes) :=
  ((log i).value.map some).toList ++ if i = last then [none] else []

/-- What is sent on `commitC` for `n` entries from index `first` on. -/
def messages (log : ℕ → Payload) (last first n : ℕ) : List (Option Bytes) :=
  (List.range' first n).flatMap (messagesAt log last)

variable {log : ℕ → Payload}

theorem span_succ (first n : ℕ) :
    span log first (n + 1) = entryAt log first :: span log (first + 1) n := rfl

@[simp] theorem length_span (first n : ℕ) : (span log first n).length = n := by
  rw [span, List.length_map, List.length_range']

theorem drop_span (first n k : ℕ) : (span log first n).drop k = span log (first + k) (n - k) := by
  rw [span, span, ← List.map_drop, List.drop_range', Nat.mul_one]

theorem messages_succ (last first n : ℕ) :
    messages log last first (n + 1) =
      messagesAt log last first ++ messages log last (first + 1) n := rfl

theorem messages_append (last first m n : ℕ) :
    messages log last first m ++ messages log last (first + m) n =
      messages log last first (m + n) := by
  rw [messages, messages, messages, ← List.flatMap_append, List.range'_append_1]

/-- Entries read from the log keep their index, as long as it fits in a `uint64`. -/
theorem toNat_index_entryAt {i : ℕ} (h : i < 2 ^ 64) : (entryAt log i).index.toNat = i :=
  UInt64.toNat_ofNat_of_lt' h

/-! ## What the two functions do on a span of the log -/

/-- **The cut.**  The wrapping subtraction leaves exactly the entries above
`appliedIndex`. -/
theorem entriesToApply_span {rc : Node} {first n : ℕ} (hfirst : first ≤ rc.appliedIndex.toNat + 1)
    (hn : first + n < 2 ^ 64) (happ : rc.appliedIndex.toNat + 1 < 2 ^ 64) :
    entriesToApply rc (span log first n) =
      .ok (span log (rc.appliedIndex.toNat + 1) (first + n - (rc.appliedIndex.toNat + 1))) := by
  cases n with
  | zero =>
      have hzero : first + 0 - (rc.appliedIndex.toNat + 1) = 0 := by omega
      rw [hzero]
      rfl
  | succ n =>
      have hidx : (entryAt log first).index.toNat = first := toNat_index_entryAt (by omega)
      have hcut : (rc.appliedIndex - (entryAt log first).index + 1).toNat =
          rc.appliedIndex.toNat + 1 - first := by
        rw [UInt64.toNat_add, UInt64.toNat_sub, hidx]
        -- the ordinary case `first = appliedIndex + 1` wraps to 2^64 - 1 and back to 0
        have := rc.appliedIndex.toNat_lt
        simp only [UInt64.reduceToNat]
        omega
      have hlen : (UInt64.ofNat (span log first (n + 1)).length).toNat = n + 1 := by
        rw [length_span, UInt64.toNat_ofNat_of_lt']
        show n + 1 < 2 ^ 64
        omega
      have hgap : ¬ (entryAt log first).index > rc.appliedIndex + 1 := by
        intro h
        rw [gt_iff_lt, UInt64.lt_iff_toNat_lt, UInt64.toNat_add, hidx] at h
        simp only [UInt64.reduceToNat] at h
        omega
      unfold entriesToApply
      rw [span_succ]
      show (if _ then _ else _) = _
      rw [if_neg hgap, ← span_succ]
      by_cases hlt : rc.appliedIndex - (entryAt log first).index + 1 <
          UInt64.ofNat (span log first (n + 1)).length
      · rw [if_pos hlt, hcut, drop_span]
        have h1 : first + (rc.appliedIndex.toNat + 1 - first) = rc.appliedIndex.toNat + 1 := by omega
        have h2 : n + 1 - (rc.appliedIndex.toNat + 1 - first) =
            first + (n + 1) - (rc.appliedIndex.toNat + 1) := by omega
        rw [h1, h2]
      · rw [if_neg hlt]
        rw [UInt64.lt_iff_toNat_lt, hcut, hlen] at hlt
        have hzero : first + (n + 1) - (rc.appliedIndex.toNat + 1) = 0 := by omega
        rw [hzero]
        rfl

theorem commits_append (out out' : List Output) :
    commits (out ++ out') = commits out ++ commits out' := List.filterMap_append ..

/-- An entry that does not remove this node goes through the `switch`, and what it
sends is its value. -/
theorem outputs_of_ne_remove {id : UInt64} {p : Payload} (h : p ≠ .confChange (.removeNode id)) :
    ∃ out, p.outputs id = some out ∧ commits out = (p.value.map some).toList := by
  cases p with
  | normal data =>
      refine ⟨_, rfl, ?_⟩
      show _ = ((if data = [] then none else some data : Option Bytes).map some).toList
      by_cases hd : data = []
      · rw [if_pos hd, if_pos hd]; rfl
      · rw [if_neg hd, if_neg hd]; rfl
  | confChange cc =>
      cases cc with
      | addNode n ctx =>
          refine ⟨_, rfl, ?_⟩
          by_cases hc : ctx = []
          · rw [if_pos hc]; rfl
          · rw [if_neg hc]; rfl
      | removeNode n =>
          have hn : n ≠ id := fun hn => h (by rw [hn])
          exact ⟨[.removePeer n], if_neg hn, rfl⟩
      | updateNode n => exact ⟨[], rfl, rfl⟩

/-- One round of the loop of `publishEntries`. -/
theorem publishEntries_entryAt {rc : Node} {i : ℕ} (es : List Entry) (hi : i < 2 ^ 64)
    (hremove : log i ≠ .confChange (.removeNode rc.id)) :
    ∃ out, commits out = messagesAt log rc.lastIndex.toNat i ∧
      publishEntries noStop rc (entryAt log i :: es) =
        (out ++ (publishEntries noStop { rc with appliedIndex := UInt64.ofNat i } es).1,
          (publishEntries noStop { rc with appliedIndex := UInt64.ofNat i } es).2) := by
  obtain ⟨out, hout, hcommits⟩ := outputs_of_ne_remove hremove
  have hlast : UInt64.ofNat i = rc.lastIndex ↔ i = rc.lastIndex.toNat := by
    rw [← UInt64.toNat_inj, UInt64.toNat_ofNat_of_lt' hi]
  have hstop (k : UInt64) : (log i).value.any (fun data => noStop k (some data)) = false := by
    cases (log i).value <;> rfl
  by_cases hi' : i = rc.lastIndex.toNat
  · refine ⟨out ++ [.commit none], ?_, ?_⟩
    · rw [commits_append, hcommits, messagesAt, if_pos hi']; rfl
    · simp only [publishEntries, entryAt, hout, hstop, hlast.2 hi', if_true]
      rw [List.append_assoc]
      rfl
  · refine ⟨out, ?_, ?_⟩
    · rw [hcommits, messagesAt, if_neg hi', List.append_nil]
    · simp only [publishEntries, entryAt, hout, hstop, mt hlast.1 hi', if_false]
      rfl

/-- **Publishing a span.**  The values of the entries go out in index order, `nil`
right after the entry at `lastIndex`, and `appliedIndex` ends at the last index. -/
theorem publishEntries_span {rc : Node} {n : ℕ} (hn : rc.appliedIndex.toNat + n < 2 ^ 64)
    (hremove : ∀ i, rc.appliedIndex.toNat < i → i ≤ rc.appliedIndex.toNat + n →
      log i ≠ .confChange (.removeNode rc.id)) :
    ∃ out, commits out = messages log rc.lastIndex.toNat (rc.appliedIndex.toNat + 1) n ∧
      publishEntries noStop rc (span log (rc.appliedIndex.toNat + 1) n) =
        (out, { rc with appliedIndex := UInt64.ofNat (rc.appliedIndex.toNat + n) }, true) := by
  induction n generalizing rc with
  | zero =>
      refine ⟨[], rfl, ?_⟩
      have hidx : UInt64.ofNat (rc.appliedIndex.toNat + 0) = rc.appliedIndex := UInt64.ofNat_toNat
      rw [hidx]
      rfl
  | succ n ih =>
      -- the node after the first entry is the one the rest is published from
      have hidx : (UInt64.ofNat (rc.appliedIndex.toNat + 1)).toNat = rc.appliedIndex.toNat + 1 :=
        UInt64.toNat_ofNat_of_lt' (by show _ < 2 ^ 64; omega)
      obtain ⟨out, hout, heq⟩ := @publishEntries_entryAt log rc _
        (span log (rc.appliedIndex.toNat + 1 + 1) n) (by omega)
        (hremove (rc.appliedIndex.toNat + 1) (by omega) (by omega))
      obtain ⟨out', hout', heq'⟩ := @ih
        { rc with appliedIndex := UInt64.ofNat (rc.appliedIndex.toNat + 1) }
        (by rw [hidx]; omega) (by rw [hidx]; intro i h1 h2; exact hremove i (by omega) (by omega))
      simp only [hidx] at hout' heq'
      refine ⟨out ++ out', ?_, ?_⟩
      · rw [commits_append, hout, hout', messages_succ]
      · rw [span_succ, heq, heq', Nat.add_assoc, Nat.add_comm 1 n]

/-! ## Whole runs of batches -/

/-- The event loop as far as `commitC` sees it: the node, and everything sent on
`commitC` so far. -/
structure Publisher where
  node : Node
  sent : List (Option Bytes)
  deriving DecidableEq, Repr

/-- One round of the event loop on a batch of committed entries; it goes on to the
next round unless the process dies or `publishEntries` returns `false`. -/
def publishBatch (s : Publisher) (batch : List Entry) : Option Publisher :=
  match entriesToApply s.node batch with
  | .error _ => none
  | .ok ents =>
      match publishEntries noStop s.node ents with
      | (out, node, true) => some ⟨node, s.sent ++ commits out⟩
      | (_, _, false) => none

/-- A batch as raft delivers it: consecutive entries of the committed log, starting
at most one above `appliedIndex`, with indices below `2^64 - 1`, none of which
removes this node. -/
def Delivered (log : ℕ → Payload) (s : Publisher) (batch : List Entry) : Prop :=
  ∃ first n, batch = span log first n ∧ first ≤ s.node.appliedIndex.toNat + 1 ∧
    first + n < 2 ^ 64 ∧ ∀ e ∈ batch, e.payload ≠ .confChange (.removeNode s.node.id)

/-- The highest index among a start index and the entries of some batches. -/
def highest (start : ℕ) (batches : List (List Entry)) : ℕ :=
  batches.flatten.foldl (fun h e => max h e.index.toNat) start

theorem foldl_max_span {first n start : ℕ} (hn : first + n < 2 ^ 64) (hfirst : first ≤ start + 1) :
    (span log first n).foldl (fun h e => max h e.index.toNat) start =
      start + (first + n - (start + 1)) := by
  induction n generalizing first start with
  | zero =>
      show start = _
      omega
  | succ n ih =>
      rw [span_succ, List.foldl_cons, toNat_index_entryAt (by omega), ih (by omega) (by omega)]
      omega

/-- **One batch.**  A delivered batch is published without an error: the entries
above `appliedIndex` are sent, and `appliedIndex` ends at the highest index. -/
theorem publishBatch_delivered {s : Publisher} {batch : List Entry}
    (happ : s.node.appliedIndex.toNat + 1 < 2 ^ 64) (h : Delivered log s batch) :
    ∃ n, s.node.appliedIndex.toNat + n = highest s.node.appliedIndex.toNat [batch] ∧
      s.node.appliedIndex.toNat + n + 1 < 2 ^ 64 ∧
      publishBatch s batch = some
        ⟨{ s.node with appliedIndex := UInt64.ofNat (s.node.appliedIndex.toNat + n) },
          s.sent ++ messages log s.node.lastIndex.toNat (s.node.appliedIndex.toNat + 1) n⟩ := by
  obtain ⟨first, m, rfl, hfirst, hm, hremove⟩ := h
  refine ⟨first + m - (s.node.appliedIndex.toNat + 1), ?_, by omega, ?_⟩
  · rw [highest, List.flatten_singleton, foldl_max_span hm hfirst]
  · obtain ⟨out, hout, heq⟩ := @publishEntries_span log s.node
      (first + m - (s.node.appliedIndex.toNat + 1)) (by omega) (by
        intro i h1 h2
        refine hremove (entryAt log i) ?_
        rw [span, List.mem_map]
        exact ⟨i, List.mem_range'_1.2 (by omega), rfl⟩)
    rw [publishBatch, entriesToApply_span hfirst hm happ]
    simp only [heq, hout]

theorem highest_cons (start : ℕ) (batch : List Entry) (batches : List (List Entry)) :
    highest start (batch :: batches) = highest (highest start [batch]) batches := by
  rw [highest, highest, highest, List.flatten_cons, List.foldl_append, List.flatten_singleton]

/-- **All batches.**  By induction on the batches: what has been sent after them is
what the log holds from the start index to the highest index. -/
theorem run_publishBatch {s : Publisher} {batches : List (List Entry)}
    (happ : s.node.appliedIndex.toNat + 1 < 2 ^ 64)
    (h : Offered publishBatch (Delivered log) s batches) :
    ∃ n, s.node.appliedIndex.toNat + n = highest s.node.appliedIndex.toNat batches ∧
      s.node.appliedIndex.toNat + n + 1 < 2 ^ 64 ∧
      run publishBatch s batches = some
        ⟨{ s.node with appliedIndex := UInt64.ofNat (s.node.appliedIndex.toNat + n) },
          s.sent ++ messages log s.node.lastIndex.toNat (s.node.appliedIndex.toNat + 1) n⟩ := by
  induction batches generalizing s with
  | nil =>
      refine ⟨0, rfl, by omega, ?_⟩
      rw [Nat.add_zero, UInt64.ofNat_toNat]
      show some s = some ⟨s.node, s.sent ++ []⟩
      rw [List.append_nil]
  | cons batch batches ih =>
      obtain ⟨hdel, hrest⟩ := offered_cons.1 h
      obtain ⟨m, hm, hlt, hstep⟩ := publishBatch_delivered happ hdel
      have hidx : (UInt64.ofNat (s.node.appliedIndex.toNat + m)).toNat =
          s.node.appliedIndex.toNat + m :=
        UInt64.toNat_ofNat_of_lt' (by show _ < 2 ^ 64; omega)
      obtain ⟨n, hn, hlt', hrun⟩ := ih (by simp only [hidx]; exact hlt) (hrest _ hstep)
      simp only [hidx] at hn hlt' hrun
      refine ⟨m + n, ?_, by omega, ?_⟩
      · rw [highest_cons, ← hm, ← hn, Nat.add_assoc]
      · rw [run_cons, hstep]
        show run publishBatch _ batches = _
        rw [hrun, List.append_assoc, ← Nat.add_assoc, Nat.add_right_comm _ m 1, messages_append]

/-- The non-nil messages for a span are the values of its entries. -/
theorem filterMap_messages (last first n : ℕ) :
    (messages log last first n).filterMap id =
      (List.range' first n).filterMap fun i => (log i).value := by
  induction n generalizing first with
  | zero => rfl
  | succ n ih =>
      rw [messages_succ, List.filterMap_append, ih, List.range'_succ, List.filterMap_cons]
      have hone : (messagesAt log last first).filterMap id = (log first).value.toList := by
        unfold messagesAt
        cases (log first).value <;> split_ifs <;> rfl
      rw [hone]
      cases (log first).value <;> rfl

/-- `nil` is among the messages for a span once, if `last` lies in it. -/
theorem count_none_messages (last first n : ℕ) :
    (messages log last first n).count none = if first ≤ last ∧ last < first + n then 1 else 0 := by
  induction n generalizing first with
  | zero =>
      rw [if_neg (by omega)]
      rfl
  | succ n ih =>
      have hone : (messagesAt log last first).count none = if first = last then 1 else 0 := by
        unfold messagesAt
        cases (log first).value <;> split_ifs <;> rfl
      rw [messages_succ, List.count_append, ih, hone]
      by_cases heq : first = last
      · rw [if_pos heq, if_neg (by omega), if_pos (by omega)]
      · rw [if_neg heq]
        split_ifs <;> omega

/-- **Each committed entry is applied once and in order.**  Over every sequence of
delivered batches, no call fails; the non-nil values sent on `commitC` are those of
the log from the start index (excluded) to the highest index seen, in index order;
`appliedIndex` never decreases and ends at that index; and `nil` is sent once if
`lastIndex` lies in the range and never otherwise. -/
theorem published_in_order (log : ℕ → Payload) (rc : Node) (batches : List (List Entry))
    (happ : rc.appliedIndex.toNat + 1 < 2 ^ 64)
    (hdel : Offered publishBatch (Delivered log) ⟨rc, []⟩ batches) :
    ∃ t, run publishBatch ⟨rc, []⟩ batches = some t ∧
      t.sent.filterMap id =
        (List.range' (rc.appliedIndex.toNat + 1)
          (highest rc.appliedIndex.toNat batches - rc.appliedIndex.toNat)).filterMap
          (fun i => (log i).value) ∧
      t.node.appliedIndex.toNat = highest rc.appliedIndex.toNat batches ∧
      EachStep publishBatch
        (fun s batch => ∀ s', publishBatch s batch = some s' →
          s.node.appliedIndex ≤ s'.node.appliedIndex) ⟨rc, []⟩ batches ∧
      t.sent.count none =
        if rc.appliedIndex.toNat < rc.lastIndex.toNat ∧
          rc.lastIndex.toNat ≤ highest rc.appliedIndex.toNat batches then 1 else 0 := by
  obtain ⟨n, hn, hlt, hrun⟩ := run_publishBatch (s := ⟨rc, []⟩) happ hdel
  simp only [List.nil_append] at hn hlt hrun
  refine ⟨_, hrun, ?_, ?_, ?_, ?_⟩
  · rw [← hn, Nat.add_sub_cancel_left]
    exact filterMap_messages ..
  · rw [← hn]
    exact UInt64.toNat_ofNat_of_lt' (by show _ < 2 ^ 64; omega)
  · -- each prefix of the run ends in a state from which the next batch is delivered
    intro pre batch post s s' hsplit hpre _ s'' hs''
    have hoff : Offered publishBatch (Delivered log) ⟨rc, []⟩ pre := offered_left (hsplit ▸ hdel)
    have happ' : s.node.appliedIndex.toNat + 1 < 2 ^ 64 := by
      obtain ⟨m, -, hm, hpre'⟩ := run_publishBatch (s := ⟨rc, []⟩) happ hoff
      cases hpre.symm.trans hpre'
      show (UInt64.ofNat _).toNat + 1 < 2 ^ 64
      rw [UInt64.toNat_ofNat_of_lt' (by show _ < 2 ^ 64; omega)]
      exact hm
    obtain ⟨m, -, hm, hstep⟩ := publishBatch_delivered happ' (hdel pre batch post s hsplit hpre)
    rw [hstep] at hs''
    cases hs''
    rw [UInt64.le_iff_toNat_le]
    show _ ≤ (UInt64.ofNat _).toNat
    rw [UInt64.toNat_ofNat_of_lt' (by show _ < 2 ^ 64; omega)]
    omega
  · show List.count none (messages ..) = _
    rw [count_none_messages, ← hn]
    refine if_congr ?_ rfl rfl
    omega

/-- A log with a put, an empty entry, a configuration change and another put. -/
def sampleLog : ℕ → Payload
  | 2 => .normal []
  | 3 => .confChange (.addNode 2 [104])
  | _ => .normal [7]

/-- A replayed log of three entries in two overlapping batches: two values and one
`nil` are sent. -/
theorem published_in_order_overlap :
    ∃ t, run publishBatch ⟨⟨1, 3, 0, 0, 10000⟩, []⟩ [span sampleLog 1 2, span sampleLog 2 3] = some t ∧
      t.sent.filterMap id = [[7], [7]] ∧ t.node.appliedIndex.toNat = 4 ∧ t.sent.count none = 1 := by
  have hdel : Offered publishBatch (Delivered sampleLog) ⟨⟨1, 3, 0, 0, 10000⟩, []⟩
      [span sampleLog 1 2, span sampleLog 2 3] := by
    refine offered_cons.2 ⟨⟨1, 2, rfl, by decide, by decide, by decide⟩, fun s₁ h₁ => ?_⟩
    obtain rfl : ⟨⟨1, 3, 0, 2, 10000⟩, [some [7]]⟩ = s₁ := Option.some.inj h₁
    refine offered_cons.2 ⟨⟨2, 3, rfl, by decide, by decide, by decide⟩, fun s₂ _ => ?_⟩
    exact offered_nil _ s₂
  obtain ⟨t, hrun, hsent, happ, -, hnil⟩ :=
    published_in_order sampleLog ⟨1, 3, 0, 0, 10000⟩ _ (by decide) hdel
  exact ⟨t, hrun, hsent.trans (by decide), happ.trans (by decide), hnil.trans (by decide)⟩

end Goraft
